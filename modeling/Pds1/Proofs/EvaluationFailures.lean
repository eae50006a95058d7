import Pds1.Proofs.Session

/-!
# How evaluations fail

Every expression that a run evaluates was read without complaint and names labels and literals that
have entries. Such an expression fails only on a label that is never bound, on a literal that has no
address yet, or on a division by zero. In the second pass every literal has its address.
-/

namespace Pds1

namespace SymbolTable

variable {t : SymbolTable}

theorem InRange.bind (h : t.InRange) (name : String) (label : Label) :
    (t.bind name label).InRange := by
  simp only [SymbolTable.bind]
  split
  · exact ⟨h.waiting, h.placed, h.queue⟩
  · exact ⟨h.waiting, h.placed, h.queue⟩

theorem InRange.place (h : t.InRange) {id : LiteralId} (next : t.nextWaiting? = some id)
    (address : Int32) (relocatable : Bool) : (t.place id address relocatable).InRange := by
  have inside : id < t.literals.size := h.queue id (List.mem_of_head? next)
  constructor
  · intro entry member
    rw [size_place]
    exact h.waiting entry (List.mem_of_mem_filter member)
  · intro entry member
    rw [size_place]
    rcases List.mem_cons.mp member with rfl | old
    · exact inside
    · exact h.placed entry old
  · intro other member
    rw [size_place]
    exact h.queue other (List.mem_of_mem_filter member)

end SymbolTable

/-- An expression that a cell may hold: it was read without complaint, and a failure of it comes
without a warning. -/
structure ExprStore.Payload (s : ExprStore) (id : ExprId) : Prop where
  valid : s.Valid id
  quiet : s.FailsQuietly id

theorem ExprStore.Extends.payload {s s' : ExprStore} (h : s.Extends s') {id : ExprId}
    (payload : s.Payload id) : s'.Payload id :=
  ⟨h.valid payload.valid, h.failsQuietly payload.valid.lt payload.quiet⟩

namespace Assembly

/-- The tables are sound, and so is every expression that the second pass will evaluate. -/
structure Sound (a : Assembly) : Prop where
  tables : a.toTables.Sound
  cells : ∀ cell ∈ a.code, ∀ id, cell.content = .expr id → a.exprs.Payload id
  start : ∀ id, a.start = some id → a.exprs.Valid id

theorem sound_init (dialect : Dialect) : (init dialect).Sound where
  tables := ⟨ExprStore.sound_empty _, SymbolTable.inRange_empty⟩
  cells cell member := by simp [init] at member
  start id given := by simp [init] at given

variable {a b : Assembly}

theorem Sound.emit (h : a.Sound) {content : Cell.Content}
    (payload : ∀ id, content = .expr id → a.exprs.Payload id) : (a.emit content).Sound := by
  refine ⟨h.tables, ?_, h.start⟩
  intro cell member id expr
  rcases Array.mem_push.mp member with old | rfl
  · exact h.cells cell old id expr
  · exact payload id expr

theorem Sound.emitWord (h : a.Sound) (value : Int32) : (a.emitWord value).Sound :=
  h.emit fun _ other => by cases other

theorem Sound.emitExpr (h : a.Sound) {id : ExprId} (payload : a.exprs.Payload id) :
    (a.emitExpr id).Sound :=
  h.emit fun _ same => by
    cases same
    exact payload

/-- Sound tables that have grown may replace the old ones. -/
theorem Sound.grow (h : a.Sound) {tables : Tables} (grown : a.exprs.Extends tables.exprs)
    (sound : tables.Sound) : Sound { a with toTables := tables } where
  tables := sound
  cells cell member id expr := grown.payload (h.cells cell member id expr)
  start id given := grown.valid (h.start id given)

/-- After an operand has been read, it is a valid expression unless it was marked as unreadable. -/
theorem Sound.operand (h : a.Sound) {c c' : Cursor} {id : ExprId}
    (read : a.operand c = (id, c', b)) :
    b.Sound ∧ (b.exprs.isInvalid id = false → b.exprs.Valid id) := by
  obtain ⟨grown, inside⟩ := operand_grows read
  refine ⟨?_, fun valid => ExprStore.valid_iff.mpr ⟨inside, valid⟩⟩
  rw [operand_frame read]
  exact h.grow grown.exprs (grown.sound h.tables)

theorem Sound.emitField (h : a.Sound) {op : Operator}
    (masks : op = .mask ∨ op = .page11 ∨ op = .page12) (right code : Int32) {id : ExprId}
    (valid : a.exprs.isInvalid id = false → a.exprs.Valid id) (quiet : a.exprs.Quiet id) :
    (a.emitField op right code id).Sound := by
  simp only [Assembly.emitField]
  split
  · exact h.emitWord 0
  · next usable =>
    have valid := valid (by simpa using usable)
    have joins := ExprStore.joins_field h.tables.exprs op right code valid
    have stored : Sound { a with exprs := (a.exprs.field op right code id).2 } :=
      h.grow joins.grown ⟨joins.sound, h.tables.symbols⟩
    exact stored.emitExpr
      ⟨joins.valid, ExprStore.failsQuietly_field masks right code valid.lt quiet⟩

theorem Sound.bind (h : a.Sound) (name : String) (label : Label) :
    Sound { a with symbols := a.symbols.bind name label } := by
  have entered := a.symbols.interns_bind name label
  refine ⟨⟨h.tables.exprs.mono entered.labels ?_, h.tables.symbols.bind name label⟩, h.cells,
    h.start⟩
  rw [entered.size]
  exact Nat.le_refl _

theorem Sound.place (h : a.Sound) {id : LiteralId} (next : a.symbols.nextWaiting? = some id)
    (address : Int32) (relocatable : Bool) :
    Sound { a with symbols := a.symbols.place id address relocatable } := by
  refine ⟨⟨h.tables.exprs.mono (Nat.le_refl _) ?_, h.tables.symbols.place next address relocatable⟩,
    h.cells, h.start⟩
  rw [SymbolTable.size_place]

theorem Sound.note (h : a.Sound) (d : Diagnostic) : (a.note d).Sound :=
  ⟨⟨h.tables.exprs, h.tables.symbols⟩, h.cells, h.start⟩

theorem Sound.valueNow (h : a.Sound) (id : ExprId) : (a.valueNow id).2.Sound :=
  ⟨⟨h.tables.exprs, h.tables.symbols⟩, h.cells, h.start⟩

theorem Sound.moveOrigin (h : a.Sound) (d : Directive) (value : Int32) :
    (a.moveOrigin d value).Sound := by
  simp only [Assembly.moveOrigin]
  split
  · exact ⟨h.tables, h.cells, h.start⟩
  · exact ⟨h.tables, h.cells, h.start⟩
  · exact ⟨h.tables, h.cells, h.start⟩

theorem Move.sound {p q : Position} (h : Move refusePool True True p q) (sound : p.2.Sound) :
    q.2.Sound := by
  cases h with
  | skip => exact sound
  | note _ _ d => exact sound.note d
  | log | comment => exact ⟨sound.tables, sound.cells, sound.start⟩
  | label _ a name =>
    simp only [bindLabel, noteIf]
    split
    · exact (sound.bind name _).note _
    · exact sound.bind name _
  | word _ _ value => exact sound.emitWord value
  | pool => exact sound.note _
  | stop => exact ⟨sound.tables, sound.cells, fun _ given => by cases given⟩
  | operand read => exact (sound.operand read).1
  | expr read valid =>
    have after := sound.operand read
    exact after.1.emitExpr ⟨after.2 valid, (operand_quiet read).failsQuietly⟩
  | field read masks right code =>
    have after := sound.operand read
    exact after.1.emitField masks right code after.2 (operand_quiet read)
  | value read valid => exact (sound.operand read).1.valueNow _
  | @origin _ a b b' _ _ id read valid value known d =>
    obtain rfl : (b.valueNow id).2 = b' := congrArg Prod.snd known
    exact ((sound.operand read).1.valueNow id).moveOrigin d value
  | @assign a b b' _ _ id read valid value known name _ =>
    obtain rfl : (b.valueNow id).2 = b' := congrArg Prod.snd known
    exact ((sound.operand read).1.valueNow id).bind name _
  | @stopAt a b _ _ id read =>
    have after := sound.operand read
    refine ⟨after.1.tables, after.1.cells, ?_⟩
    intro id' given
    simp only at given
    split at given
    · cases given
    · next usable =>
      cases given
      exact after.2 (by simpa using usable)

theorem Path.sound {ts : List Task} (h : Path a ts b) (start : a.Sound) : b.Sound := by
  induction h with
  | refl => exact start
  | task _ _ ih => exact ih
  | move _ m ih => exact m.sound ih
  | turn _ _ _ _ _ ih => exact ⟨⟨ih.tables.exprs, ih.tables.symbols⟩, ih.cells, ih.start⟩
  | restart _ ih => exact ⟨ih.tables, ih.cells, ih.start⟩
  | @place _ id m _ _ next _ ih =>
    have placed := ih.place (nextWaiting?_literalBody next) m.location
      (literalBody id m).relocatable
    exact ⟨⟨placed.tables.exprs, placed.tables.symbols⟩, placed.cells, placed.start⟩
  | mark _ first count ih =>
    refine ⟨ih.tables, ?_, ih.start⟩
    intro cell member id expr
    rcases Array.mem_push.mp member with old | rfl
    · exact ih.cells cell old id expr
    · cases expr

/-- A second pass changes nothing that an evaluation reads. -/
theorem Sound.passTwo (h : a.Sound) (source : Source) (o : Outputs) :
    (a.passTwo source o).2.2.1.Sound := by
  rcases a.passTwo_cases source o with ⟨lost, -⟩ | ⟨lines, kept, -⟩
  · rw [lost]
    exact ⟨h.tables, h.cells, h.start⟩
  · rw [kept]
    exact ⟨h.tables, h.cells, h.start⟩

theorem sound_session {k : Nat} (settled : Settled k a) (h : a.Sound) (passes : List Pass) :
    (session passes a).Sound := by
  induction passes generalizing k a with
  | nil => exact h
  | cons pass rest ih =>
    obtain ⟨k', settled', -⟩ := settled.run pass
    refine ih settled' ?_
    cases pass with
    | first source => exact (path_passOne source settled.inOrder).sound h
    | second source o => exact h.passTwo source o

/-- Reads an operand and evaluates it at once, unless it cannot be read or, where only a number will
do, refers to a symbol. -/
def evaluateNext (number : Bool) (c : Cursor) (a : Assembly) :
    Option (ExprId × Except EvalError Int32) × Cursor × Assembly :=
  let (id, c, a) := a.operand c
  if a.exprs.isInvalid id || (number && a.exprs.symbolic id) then (none, c, a)
  else
    let (outcome, a) := a.valueNow id
    (some (id, outcome), c, a)

/-- The two ways this can go. -/
theorem evaluateNext_cases (number : Bool) (c : Cursor) (a : Assembly) :
    ∃ id c' b, a.operand c = (id, c', b) ∧
      (((b.exprs.isInvalid id || (number && b.exprs.symbolic id)) = true ∧
          evaluateNext number c a = (none, c', b)) ∨
        ((b.exprs.isInvalid id || (number && b.exprs.symbolic id)) = false ∧
          ∃ outcome b', b.valueNow id = (outcome, b') ∧
            evaluateNext number c a = (some (id, outcome), c', b'))) := by
  generalize read : a.operand c = r
  obtain ⟨id, c', b⟩ := r
  refine ⟨id, c', b, rfl, ?_⟩
  cases skipped : b.exprs.isInvalid id || (number && b.exprs.symbolic id) with
  | true => exact .inl ⟨rfl, by simp only [evaluateNext, read, skipped, if_true]⟩
  | false =>
    refine .inr ⟨rfl, (b.valueNow id).1, (b.valueNow id).2, rfl, ?_⟩
    simp only [evaluateNext, read, skipped]
    rfl

theorem origin_eq (d : Directive) (c : Cursor) (a : Assembly) :
    origin d c a =
      match evaluateNext false c.dropBlanks a with
      | (none, c, a) => (c, a.note (.ignored d.name))
      | (some (_, .ok value), c, a) => (c, a.moveOrigin d value)
      | (some (_, .error e), c, a) => (c, (a.note (.evaluation e)).note (.ignored d.name)) := by
  obtain ⟨id, c', b, read, ⟨skipped, next⟩ | ⟨usable, outcome, b', known, next⟩⟩ :=
    evaluateNext_cases false c.dropBlanks a
  · simp_all [origin]
  · cases outcome <;> simp_all [origin]

theorem movement_eq (axis : String) (c : Cursor) (a : Assembly) :
    movement axis c a =
      match c.dropBlanks.accept? ',' with
      | none => (none, c.dropBlanks, a.note (.commaExpected c.dropBlanks.next?))
      | some d =>
        match evaluateNext true d.dropBlanks a with
        | (some (_, .ok value), d, a) => (some value, d, a)
        | (_, d, a) => (some 0, d, a.note (.unreadableMovement axis)) := by
  simp only [movement]
  cases c.dropBlanks.accept? ',' with
  | none => rfl
  | some d =>
    obtain ⟨id, c', b, read, ⟨skipped, next⟩ | ⟨usable, outcome, b', known, next⟩⟩ :=
      evaluateNext_cases true d.dropBlanks a
    · simp_all
    · cases outcome <;> simp_all

/-- The three ways in which an assignment can go. -/
theorem definition?_cases {c : Cursor} {a b : Assembly} (found : definition? c a = some b) :
    ∃ name d e outcome c' a', Name.read? a.dialect true c = some (name, d) ∧
      d.dropBlanks.accept? '=' = some e ∧
      evaluateNext false (e.skip '=').dropBlanks a = (outcome, c', a') ∧
      ((outcome = none ∧ b = a'.note (.invalidAssignment name)) ∨
        (∃ id value, outcome = some (id, .ok value) ∧ b = { a' with
          symbols := a'.symbols.bind name
            (.bound value a'.relocatable (!a'.exprs.symbolic id)) }) ∨
        ∃ id error, outcome = some (id, .error error) ∧
          b = (a'.note (.evaluation error)).note .undefinedAssignment) := by
  simp only [definition?] at found
  split at found
  · cases found
  · next name d named =>
    split at found
    · cases found
    · next e equals =>
      refine ⟨name, d, e, ?_⟩
      obtain ⟨id, c', a', read, ⟨skipped, next⟩ | ⟨usable, outcome, b', known, next⟩⟩ :=
        evaluateNext_cases false (e.skip '=').dropBlanks a
      · refine ⟨_, _, _, named, equals, next, .inl ⟨rfl, ?_⟩⟩
        simp_all
      · refine ⟨_, _, _, named, equals, next, .inr ?_⟩
        cases outcome with
        | ok value => exact .inl ⟨id, value, rfl, by simp_all⟩
        | error error => exact .inr ⟨id, error, rfl, by simp_all⟩

/-- The outcome of evaluating the operand at a cursor, if it is evaluated. -/
def outcomeNext (number : Bool) (c : Cursor) (a : Assembly) : List (Except EvalError Int32) :=
  ((evaluateNext number c a).1.map Prod.snd).toList

/-- The outcome for a displacement. -/
def movementOutcomes (c : Cursor) (a : Assembly) : List (Except EvalError Int32) :=
  match c.dropBlanks.accept? ',' with
  | none => []
  | some d => a.outcomeNext true d.dropBlanks

/-- The displacements of a long vector. The second is read only behind the first. -/
def vectorOutcomes (c : Cursor) (a : Assembly) : List (Except EvalError Int32) :=
  if c.operandFollows then
    let letter := c.dropBlanks.next?
    let a := a.noteIf (letter.bind Vector.beam?).isNone (.invalidBeam letter)
    movementOutcomes c.dropBlanks.step a ++
      match movement "X" c.dropBlanks.step a with
      | (none, _, _) => []
      | (some _, c, a) => movementOutcomes c a
  else []

end Assembly

/-- The outcomes of the evaluations that a task makes. -/
def Task.outcomes : Task → List (Except EvalError Int32)
  | assign c a => a.outcomeNext false c
  | direct d c a =>
    match d with
    | .block | .bss | .loc | .org | .rel => a.outcomeNext false c.dropBlanks
    | .dlv => a.vectorOutcomes c
    | _ => []
  | pool _ | literal _ _ => []

/-- A failure that does arise is not one of a broken expression. -/
theorem EvalError.Arises.not_broken {t : SymbolTable} {e : EvalError} (h : e.Arises t) :
    e ≠ .malformed ∧ ∀ name, e ≠ .unknownLabel name := by
  constructor
  · rintro rfl
    exact h
  · rintro name rfl
    exact h

theorem EvalError.Arises.of_placed {t : SymbolTable} {e : EvalError} (h : e.Arises t)
    (placed : ∀ l ∈ t.literals, l.isDefined = true) :
    (∃ name, e = .undefinedLabel name) ∨ e = .divisionByZero := by
  cases e with
  | undefinedLabel name => exact .inl ⟨name, rfl⟩
  | undefinedLiteral text =>
    obtain ⟨l, member, waits⟩ := h
    rw [placed l member] at waits
    cases waits
  | divisionByZero => exact .inr rfl
  | unknownLabel name => exact absurd h id
  | malformed => exact absurd h id

namespace Assembly

variable {a : Assembly} {e : EvalError}

theorem Sound.valueNow_error (h : a.Sound) {id : ExprId} (valid : a.exprs.Valid id)
    (failed : .error e = (a.valueNow id).1) : e.Arises a.symbols :=
  h.tables.exprs.evaluate_error valid failed.symm

theorem Sound.reads {p q : Position} (h : p.2.Sound) (read : Reads refusePool True True p q) :
    q.2.Sound := by
  induction read with
  | refl => exact h
  | tail _ m ih => exact m.sound ih

theorem Sound.outcomeNext (h : a.Sound) {number : Bool} {c : Cursor}
    (failed : .error e ∈ a.outcomeNext number c) : ∃ t, e.Arises t := by
  obtain ⟨id, c', b, read, ⟨-, next⟩ | ⟨usable, outcome, b', known, next⟩⟩ :=
    evaluateNext_cases number c a
  · simp [Assembly.outcomeNext, next] at failed
  · obtain ⟨sound, valid⟩ := h.operand read
    have same : .error e = (b.valueNow id).1 := by
      simpa [Assembly.outcomeNext, next, known] using failed
    exact ⟨_, sound.valueNow_error (valid (Bool.or_eq_false_iff.mp usable).1) same⟩

theorem Sound.movementOutcomes (h : a.Sound) {c : Cursor}
    (failed : .error e ∈ a.movementOutcomes c) : ∃ t, e.Arises t := by
  simp only [Assembly.movementOutcomes] at failed
  split at failed
  · cases failed
  · exact h.outcomeNext failed

theorem Sound.movement (h : a.Sound) (axis : String) (c : Cursor) :
    (movement axis c a).2.2.Sound :=
  Sound.reads (p := (c, a)) h (reads_movement axis c a)

theorem Sound.vectorOutcomes (h : a.Sound) {c : Cursor} (failed : .error e ∈ a.vectorOutcomes c) :
    ∃ t, e.Arises t := by
  simp only [Assembly.vectorOutcomes] at failed
  split at failed
  · have noted : (a.noteIf (c.dropBlanks.next?.bind Vector.beam?).isNone
        (.invalidBeam c.dropBlanks.next?)).Sound :=
      Sound.reads (p := (c, a)) h (reads_noteIf .refl _ _ rfl)
    rcases List.mem_append.mp failed with first | second
    · exact noted.movementOutcomes first
    · have moved := noted.movement "X" c.dropBlanks.step
      split at second
      · cases second
      · next known =>
        rw [known] at moved
        exact moved.movementOutcomes second
  · cases failed

theorem outcomes_arise {t : Task} (h : t.state.Sound) (failed : .error e ∈ t.outcomes) :
    ∃ t, e.Arises t := by
  cases t with
  | assign c a => exact Sound.outcomeNext h failed
  | direct d c a =>
    cases d with
    | block | bss | loc | org | rel => exact Sound.outcomeNext h failed
    | dlv => exact Sound.vectorOutcomes h failed
    | _ => cases failed
  | pool | literal => cases failed

/-- The outcomes of all evaluations of a first pass. -/
def passOneOutcomes (source : Source) (a : Assembly) : List (Except EvalError Int32) :=
  (passOneTasks source a).flatMap Task.outcomes

/-- The expressions that a second pass evaluates: those in the code list and the starting
address. -/
def payloads (a : Assembly) : List ExprId :=
  a.code.toList.filterMap (fun cell => match cell.content with
    | .expr id => some id
    | _ => none) ++ a.start.toList

theorem Sound.payload_valid (h : a.Sound) {id : ExprId} (member : id ∈ a.payloads) :
    a.exprs.Valid id := by
  rcases List.mem_append.mp member with cell | start
  · obtain ⟨cell, found, content⟩ := List.mem_filterMap.mp cell
    split at content
    · next expr =>
      cases content
      exact (h.cells cell (Array.mem_def.mpr found) _ expr).valid
    · cases content
  · exact h.start id (Option.mem_toList.mp start)

/-- In any session of passes over any sources, no evaluation of a first pass meets an expression
that could not be read or a label without an entry. Those of a second pass fail only on a label that
was never bound or on a division by zero. -/
theorem evaluations_never_broken (dialect : Dialect) (passes : List Pass) :
    let a := session passes (init dialect)
    (∀ source e, .error e ∈ a.passOneOutcomes source →
      e ≠ .malformed ∧ ∀ name, e ≠ .unknownLabel name) ∧
    ∀ id ∈ a.payloads, ∀ e, (a.exprs.evaluate a.symbols id).value = .error e →
      (∃ name, e = .undefinedLabel name) ∨ e = .divisionByZero := by
  intro a
  obtain ⟨k, settled, -⟩ := (settled_init dialect).session passes
  have sound : a.Sound := sound_session (settled_init dialect) (sound_init dialect) passes
  constructor
  · intro source e failed
    obtain ⟨task, member, failed⟩ := List.mem_flatMap.mp failed
    obtain ⟨_, before⟩ := (path_passOne source settled.inOrder).before member
    obtain ⟨t, arises⟩ := outcomes_arise (before.sound sound) failed
    exact arises.not_broken
  · intro id member e failed
    have arises := sound.tables.exprs.evaluate_error (sound.payload_valid member) failed
    exact arises.of_placed (settled.inOrder.isDefined settled.idle)

end Assembly

end Pds1
