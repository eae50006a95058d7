import Pds1.Proofs.DuplicateLabels
import Pds1.Proofs.StatementWidth

/-!
# The discipline of the location counter

What a first pass does with the location counter is written down beat by beat: the words and
expressions that are added, the origin directives whose operand has a value, the beginning of each
statement, and the labels and literals with what the tables say of them afterwards. From the beats
alone the counter can be reckoned: a word moves it on by one, an origin directive sets it, nothing
else touches it. A label has to agree with the counter at the beginning of its statement, a literal
with the counter where its text begins. The reckoning never fails and arrives where the first pass
does, and no word, label or literal of the pass is missing among the beats.
-/

namespace Pds1

/-- Where the next word goes, and whether addresses are relocatable there. -/
structure Counter where
  location : Int32
  relocatable : Bool
  deriving DecidableEq

namespace Counter

def next (c : Counter) : Counter := { c with location := c.location + 1 }

/-- Where an origin directive leads whose operand has this value. -/
def moved? (c : Counter) (value : Int32) : Directive → Option Counter
  | .org | .loc => some ⟨value, false⟩
  | .rel => some ⟨value, true⟩
  | .block | .bss => some { c with location := c.location + value }
  | _ => none

end Counter

/-- Something that a first pass does at the location counter. -/
inductive Beat where
  /-- A word or an expression is added to the code list. -/
  | cell (cell : Cell)
  /-- The operand of an origin directive has been evaluated. -/
  | origin (d : Directive) (value : Int32)
  | statement
  /-- A label in front of a statement, and what its name is bound to then. -/
  | label (name : String) (entry : Option Label)
  /-- An assignment whose value is known. -/
  | definition (name : String) (value : Int32)
  /-- A literal, and the address that it has when it is placed. -/
  | literal (id : LiteralId) (address : Option Int32)
  deriving DecidableEq

namespace Beat

def cell? : Beat → Option Cell
  | cell x => some x
  | _ => none

def isOrigin : Beat → Bool
  | origin _ _ => true
  | _ => false

end Beat

/-- The counter, now and at the beginning of the statement. -/
structure Reckoner where
  now : Counter
  start : Counter
  deriving DecidableEq

/-- Reckons with one beat, if it agrees with the counter. -/
def Reckoner.step (r : Reckoner) : Beat → Option Reckoner
  | .cell x => if x.location = r.now.location then some { r with now := r.now.next } else none
  | .origin d value => (r.now.moved? value d).map fun now => { r with now := now }
  | .statement => some { r with start := r.now }
  | .label _ entry =>
    if entry = some (.bound r.start.location r.start.relocatable false) then some r else none
  | .definition _ _ => some r
  | .literal _ address => if address = some r.now.location then some r else none

def reckon (r : Reckoner) (beats : List Beat) : Option Reckoner := beats.foldlM Reckoner.step r

theorem reckon_append (r : Reckoner) (beats beats' : List Beat) :
    reckon r (beats ++ beats') = (reckon r beats).bind fun r => reckon r beats' :=
  List.foldlM_append

/-- Beats without a word or an origin directive leave the counter alone. -/
theorem now_reckon {r r' : Reckoner} {beats : List Beat} (h : reckon r beats = some r')
    (still : ∀ beat ∈ beats, beat.cell? = none ∧ beat.isOrigin = false) : r'.now = r.now := by
  induction beats generalizing r with
  | nil =>
    cases h
    rfl
  | cons beat rest ih =>
    obtain ⟨mid, first, later⟩ := Option.bind_eq_some_iff.mp h
    have kept : mid.now = r.now := by
      have quiet := still beat List.mem_cons_self
      cases beat with
      | cell | origin => simp [Beat.cell?, Beat.isOrigin] at quiet
      | statement | definition =>
        cases first
        rfl
      | label | literal =>
        simp only [Reckoner.step] at first
        split at first
        · cases first
          rfl
        · cases first
    rw [ih later fun beat member => still beat (List.mem_cons_of_mem _ member), kept]

/-- Words that follow each other without an origin directive between them are neighbours. -/
theorem neighbours_of_reckon {r r' : Reckoner} {before between after : List Beat} {x y : Cell}
    (h : reckon r (before ++ .cell x :: (between ++ .cell y :: after)) = some r')
    (still : ∀ beat ∈ between, beat.cell? = none ∧ beat.isOrigin = false) :
    y.location = x.location + 1 := by
  rw [reckon_append] at h
  obtain ⟨r₁, -, h⟩ := Option.bind_eq_some_iff.mp h
  obtain ⟨r₂, first, h⟩ := Option.bind_eq_some_iff.mp h
  have h : reckon r₂ (between ++ .cell y :: after) = some r' := h
  rw [reckon_append] at h
  obtain ⟨r₃, quiet, h⟩ := Option.bind_eq_some_iff.mp h
  obtain ⟨r₄, second, -⟩ := Option.bind_eq_some_iff.mp h
  have kept := now_reckon quiet still
  simp only [Reckoner.step] at first second
  split at first
  · next here =>
    cases first
    split at second
    · next there => rw [there, kept, here]; rfl
    · cases second
  · cases first

/-- The address of a literal that has been placed. -/
def SymbolTable.address? (t : SymbolTable) (id : LiteralId) : Option Int32 :=
  (t.literal? id).bind Literal.address

/-- New literals have no address. -/
theorem SymbolTable.Interns.address? {t t' : SymbolTable} {texts : List String}
    (h : t.Interns texts t') (id : LiteralId) : t'.address? id = t.address? id := by
  simp only [SymbolTable.address?, literal?]
  by_cases inside : id < t.literals.size
  · rw [h.getElem? inside]
  · have outside : t.literals.size ≤ id := Nat.le_of_not_lt inside
    rw [h.literals, Array.getElem?_append_right outside, Array.getElem?_eq_none outside]
    cases created : (texts.map Literal.ofText).toArray[id - t.literals.size]? with
    | none => rfl
    | some l =>
      obtain ⟨text, -, rfl⟩ := List.mem_map.mp (List.mem_toArray.mp (Array.mem_of_getElem? created))
      rfl

namespace Assembly

def counter (a : Assembly) : Counter := ⟨a.location, a.relocatable⟩

/-- The code list without the cells that stand for literal pools. -/
def plainCells (a : Assembly) : List Cell := a.code.toList.filter fun cell => !cell.isPool

/-- The cells that `b` has and `a` has not. -/
def newCells (a b : Assembly) : List Beat := (b.code.toList.drop a.code.size).map .cell

/-- A label, with the entry that it makes. -/
def labelBeats : Cursor → Assembly → List Beat :=
  labelTrace fun name a => .label name ((a.bindLabel name).symbols.binding? name)

/-- An origin directive counts if its operand has a value. -/
def originBeats (d : Directive) (c : Cursor) (a : Assembly) : List Beat :=
  match (evaluateNext false c.dropBlanks a).1 with
  | some (_, .ok value) => [.origin d value]
  | _ => []

def orderBeats (c : Cursor) (a : Assembly) : List Beat :=
  match orderDirective? a.dialect c with
  | none => newCells a (order refusePool c a).2.2
  | some (d, e) =>
    if d.movesOrigin then originBeats d e a else newCells a (order refusePool c a).2.2

/-- After its statements a literal may get a zero word, if its text comes to nothing. -/
def beats : Observer Beat where
  labels _ c a := .statement :: labelBeats c a
  order := orderBeats
  assign name c a := (assignBindings name c a).map fun b => .definition b.name b.value
  literal id a := [.literal id ((placeLiteral id a).symbols.address? id)]
  filled id a := newCells (literalStatement id a).2 (literalBody id a)

/-- The beats of a first pass, in order. -/
def passOneBeats (source : Source) (a : Assembly) : List Beat := passOneTrace beats source a

/-- From `a` to `b` words are added at the location counter, and the counter is not set. -/
def StepsOn (a b : Assembly) : Prop :=
  ∃ contents, Lays a contents b ∧ b.relocatable = a.relocatable

theorem stepsOn_of_same {a b : Assembly} (code : b.code = a.code) (counter : b.counter = a.counter)
    (lineNumber : b.lineNumber = a.lineNumber) (diagnostics : a.diagnostics <+: b.diagnostics) :
    StepsOn a b :=
  ⟨[], lays_nil code (congrArg Counter.location counter) lineNumber diagnostics,
    congrArg Counter.relocatable counter⟩

theorem StepsOn.trans {a b c : Assembly} (h : StepsOn a b) (h' : StepsOn b c) :
    StepsOn a c := by
  obtain ⟨contents, lays, flag⟩ := h
  obtain ⟨contents', lays', flag'⟩ := h'
  exact ⟨_, lays.trans lays', flag'.trans flag⟩

theorem Notes.stepsOn {a b : Assembly} (h : Notes a b) : StepsOn a b := by
  obtain ⟨said, rfl⟩ := h
  exact ⟨[], (Notes.lays ⟨said, rfl⟩), rfl⟩

theorem stepsOn_operand {a b : Assembly} {c c' : Cursor} {id : ExprId}
    (read : a.operand c = (id, c', b)) : StepsOn a b := by
  obtain rfl : (a.operand c).2.2 = b := by rw [read]
  exact ⟨[], lays_operand c a, rfl⟩

theorem stepsOn_valueNow (a : Assembly) (id : ExprId) : StepsOn a (a.valueNow id).2 :=
  ⟨[], lays_valueNow a id, rfl⟩

theorem stepsOn_field (a : Assembly) (op : Operator) (right code : Int32) (id : ExprId) :
    StepsOn a (a.emitField op right code id) := by
  obtain ⟨content, lays, -⟩ := made_field op right code id a
  refine ⟨_, lays, ?_⟩
  rw [emitField]
  split
  · rfl
  · rfl

theorem stepsOn_bindLabel (a : Assembly) (name : String) : StepsOn a (a.bindLabel name) := by
  have bound : StepsOn a { a with
      symbols := a.symbols.bind name (.bound a.location a.relocatable false) } :=
    stepsOn_of_same rfl rfl rfl (List.prefix_refl _)
  exact bound.trans (notes_noteIf _ _ _).stepsOn

/-- Every move but that of an origin directive only adds words. -/
theorem Move.stepsOn {binds : Prop} {p q : Position} (h : Move refusePool False binds p q) :
    StepsOn p.2 q.2 := by
  cases h with
  | skip | log | comment | stop => exact stepsOn_of_same rfl rfl rfl (List.prefix_refl _)
  | note _ a d => exact (notes_note a d).stepsOn
  | pool _ a => exact (notes_note a _).stepsOn
  | label _ a name => exact stepsOn_bindLabel a name
  | word _ a value => exact ⟨_, lays_emit a (.word value), rfl⟩
  | operand read => exact stepsOn_operand read
  | expr read valid => exact (stepsOn_operand read).trans ⟨_, lays_emit _ _, rfl⟩
  | field read masks right code =>
    exact (stepsOn_operand read).trans (stepsOn_field _ _ right code _)
  | value read valid => exact (stepsOn_operand read).trans (stepsOn_valueNow _ _)
  | origin allowed => exact allowed.elim
  | @assign a b b' _ _ id read valid value known name _ =>
    obtain rfl : (b.valueNow id).2 = b' := congrArg Prod.snd known
    exact ((stepsOn_operand read).trans (stepsOn_valueNow _ id)).trans
      (stepsOn_of_same rfl rfl rfl (List.prefix_refl _))
  | stopAt read =>
    exact (stepsOn_operand read).trans (stepsOn_of_same rfl rfl rfl (List.prefix_refl _))

theorem stepsOn_of_reads {binds : Prop} {p q : Position} (h : Reads refusePool False binds p q) :
    StepsOn p.2 q.2 := by
  induction h with
  | refl => exact (notes_refl _).stepsOn
  | tail _ move ih => exact ih.trans move.stepsOn

/-- The beats lead from the counter of `a` to that of `b`, and their cells are those added. -/
structure Counts (a : Assembly) (beats : List Beat) (b : Assembly) : Prop where
  reckoned : ∀ start, ∃ start', reckon ⟨a.counter, start⟩ beats = some ⟨b.counter, start'⟩
  cells : b.plainCells = a.plainCells ++ beats.filterMap Beat.cell?

/-- The beats account for what the tables of `b` say: a name is bound as before, by a label or by an
assignment among the beats, and a literal has the address that it had before or gets among them. -/
structure Accounts (a : Assembly) (beats : List Beat) (b : Assembly) : Prop where
  labels : ∀ name entry, b.symbols.binding? name = some entry →
    a.symbols.binding? name = some entry ∨
      .label name (some entry) ∈ beats ∨ .definition name entry.value ∈ beats
  literals : ∀ id address, b.symbols.address? id = some address →
    a.symbols.address? id = some address ∨ .literal id (some address) ∈ beats

variable {a b c : Assembly} {xs ys : List Beat}

theorem plainCells_of_code (code : b.code = a.code) : b.plainCells = a.plainCells := by
  rw [plainCells, code, plainCells]

theorem counts_of_same (counter : b.counter = a.counter) (code : b.code = a.code) :
    Counts a [] b :=
  ⟨fun start => ⟨start, by rw [counter]; rfl⟩, by simp [plainCells_of_code code]⟩

theorem Counts.trans (h : Counts a xs b) (h' : Counts b ys c) :
    Counts a (xs ++ ys) c := by
  refine ⟨?_, ?_⟩
  · intro start
    obtain ⟨mid, first⟩ := h.reckoned start
    obtain ⟨last, second⟩ := h'.reckoned mid
    exact ⟨last, by rw [reckon_append, first, Option.bind_some, second]⟩
  · rw [h'.cells, h.cells, List.filterMap_append, List.append_assoc]

theorem accounts_of_keeps {texts : List String} (keeps : a.symbols.Keeps b.symbols)
    (interned : a.symbols.Interns texts b.symbols) : Accounts a xs b where
  labels name entry bound := .inl (by rw [← keeps.binding, bound])
  literals id address placed := .inl (by rw [← interned.address?, placed])

theorem accounts_of_symbols (symbols : b.symbols = a.symbols) : Accounts a xs b where
  labels _ _ bound := .inl (symbols ▸ bound)
  literals _ _ placed := .inl (symbols ▸ placed)

theorem Accounts.trans (h : Accounts a xs b) (h' : Accounts b ys c) :
    Accounts a (xs ++ ys) c where
  labels name entry bound := by
    have later := h'.labels name entry bound
    have earlier := h.labels name entry
    simp only [List.mem_append]
    tauto
  literals id address placed := by
    have later := h'.literals id address placed
    have earlier := h.literals id address
    simp only [List.mem_append]
    tauto

theorem reckon_cellsFrom (line : Nat) (now start : Counter) (contents : List Cell.Content) :
    reckon ⟨now, start⟩ ((cellsFrom line now.location contents).map .cell) =
      some ⟨⟨now.location + Int32.ofNat contents.length, now.relocatable⟩, start⟩ := by
  induction contents generalizing now with
  | nil => simp [cellsFrom, reckon]
  | cons content rest ih =>
    have step : Reckoner.step ⟨now, start⟩ (.cell ⟨line, now.location, content⟩) =
        some ⟨now.next, start⟩ := if_pos rfl
    have later := ih now.next
    rw [cellsFrom, List.map_cons, reckon, List.foldlM_cons, step]
    exact later.trans (by simp only [Counter.next, add_one_add_ofNat, List.length_cons])

/-- Words that are only added count as they are. -/
theorem counts_of_stepsOn (h : StepsOn a b) (plain : ∃ cells, Emits a cells b) :
    Counts a (newCells a b) b := by
  obtain ⟨contents, lays, flag⟩ := h
  obtain ⟨cells, emits⟩ := plain
  have same : cells = cellsFrom a.lineNumber a.location contents := by
    have code := congrArg Array.toList (emits.code.symm.trans lays.code)
    simpa using code
  have new : newCells a b = cells.map .cell := by
    simp [newCells, emits.code]
  have arrived : b.counter = ⟨a.location + Int32.ofNat contents.length, a.relocatable⟩ := by
    rw [counter, lays.location, flag]
  refine ⟨fun start => ⟨start, ?_⟩, ?_⟩
  · rw [new, same, arrived]
    exact reckon_cellsFrom a.lineNumber a.counter start contents
  · have listed : (cells.map Beat.cell).filterMap Beat.cell? = cells := by
      simp [List.filterMap_map, Function.comp_def, Beat.cell?]
    rw [new, listed, plainCells, emits.code, Array.toList_append, List.filter_append,
      filter_plain emits.plain]
    rfl

/-- What reads text without an origin directive counts by the words it adds. -/
theorem counts_of_reads {binds : Prop} {p q : Position} (h : Reads refusePool False binds p q) :
    Counts p.2 (newCells p.2 q.2) q.2 :=
  counts_of_stepsOn (stepsOn_of_reads h) (emits_of_reads_refusePool h)

theorem counter_bindLabel (a : Assembly) (name : String) :
    (a.bindLabel name).counter = a.counter ∧ (a.bindLabel name).code = a.code := by
  simp only [bindLabel, noteIf]
  split
  · exact ⟨rfl, rfl⟩
  · exact ⟨rfl, rfl⟩

theorem binding?_bindLabel (a : Assembly) (name : String) :
    (a.bindLabel name).symbols.binding? name = some (.bound a.location a.relocatable false) := by
  rw [symbols_bindLabel, SymbolTable.binding?_bind, if_pos rfl]
  rfl

/-- A label agrees with the counter at the beginning of its statement. -/
theorem reckon_label (a : Assembly) (name : String) (xs : List Beat) :
    reckon ⟨a.counter, a.counter⟩
        (.label name ((a.bindLabel name).symbols.binding? name) :: xs) =
      reckon ⟨a.counter, a.counter⟩ xs := by
  have agrees : Reckoner.step ⟨a.counter, a.counter⟩
      (.label name ((a.bindLabel name).symbols.binding? name)) = some ⟨a.counter, a.counter⟩ := by
    rw [binding?_bindLabel]
    exact if_pos rfl
  rw [reckon, List.foldlM_cons, agrees]
  rfl

theorem accounts_label (a : Assembly) (name : String) :
    Accounts a [.label name ((a.bindLabel name).symbols.binding? name)] (a.bindLabel name) where
  labels other entry bound := by
    by_cases same : other = name
    · subst same
      rw [bound]
      exact .inr (.inl List.mem_cons_self)
    · rw [symbols_bindLabel, SymbolTable.binding?_bind, if_neg same] at bound
      exact .inl bound
  literals id address placed := by
    rw [symbols_bindLabel, (SymbolTable.interns_bind ..).address?] at placed
    exact .inl placed

/-- Binding labels neither moves the counter nor adds a word. -/
structure Labels (a : Assembly) (xs : List Beat) (b : Assembly) : Prop where
  reckoned : reckon ⟨a.counter, a.counter⟩ xs = some ⟨b.counter, a.counter⟩
  cells : xs.filterMap Beat.cell? = []
  code : b.code = a.code
  accounts : Accounts a xs b

theorem labels_cons {a b : Assembly} {name : String} {xs : List Beat}
    (h : Labels (a.bindLabel name) xs b) :
    Labels a (.label name ((a.bindLabel name).symbols.binding? name) :: xs) b := by
  obtain ⟨counter, code⟩ := counter_bindLabel a name
  refine ⟨?_, h.cells, h.code.trans code, (accounts_label a name).trans h.accounts⟩
  rw [reckon_label, ← counter]
  exact h.reckoned

theorem labels_nil (a : Assembly) : Labels a [] a := ⟨rfl, rfl, rfl, accounts_of_symbols rfl⟩

theorem labels_labelBeats (c : Cursor) (a : Assembly) :
    Labels a (labelBeats c a) (readLabels none c a).2.2 :=
  labelTrace_induction Labels labels_nil labels_cons none c a

theorem Labels.counts (h : Labels a xs b) : Counts a (.statement :: xs) b := by
  refine ⟨fun start => ⟨a.counter, ?_⟩, ?_⟩
  · rw [← h.reckoned]
    rfl
  · rw [List.filterMap_cons_none rfl, h.cells, plainCells_of_code h.code, List.append_nil]

theorem counter_evaluateNext (number : Bool) (c : Cursor) (a : Assembly) :
    (evaluateNext number c a).2.2.counter = a.counter ∧
      (evaluateNext number c a).2.2.code = a.code := by
  obtain ⟨id, c', b, read, ⟨-, next⟩ | ⟨-, outcome, b', known, next⟩⟩ :=
    evaluateNext_cases number c a
  · rw [next, operand_frame read]
    exact ⟨rfl, rfl⟩
  · obtain rfl : (b.valueNow id).2 = b' := congrArg Prod.snd known
    rw [next, operand_frame read]
    exact ⟨rfl, rfl⟩

theorem moved?_counter {d : Directive} (moves : d.movesOrigin = true) (value : Int32)
    (a : Assembly) : a.counter.moved? value d = some (a.moveOrigin d value).counter := by
  cases d with
  | block | bss | loc | org | rel => rfl
  | _ => cases moves

theorem code_moveOrigin (d : Directive) (value : Int32) (a : Assembly) :
    (a.moveOrigin d value).code = a.code := by
  simp only [moveOrigin]
  split
  · rfl
  · rfl
  · rfl

theorem counts_origin {d : Directive} (moves : d.movesOrigin = true) (c : Cursor) (a : Assembly) :
    Counts a (originBeats d c a) (origin d c a).2 := by
  obtain ⟨counter, code⟩ := counter_evaluateNext false c.dropBlanks a
  rw [originBeats, origin_eq]
  generalize evaluateNext false c.dropBlanks a = r at counter code
  obtain ⟨outcome, c', b⟩ := r
  cases outcome with
  | none => exact counts_of_same counter code
  | some found =>
    obtain ⟨id, e | value⟩ := found
    · exact counts_of_same counter code
    · refine ⟨fun start => ⟨start, ?_⟩, ?_⟩
      · have step : Reckoner.step ⟨a.counter, start⟩ (.origin d value) =
            some ⟨(b.moveOrigin d value).counter, start⟩ := by
          rw [Reckoner.step, ← counter, moved?_counter moves]
          rfl
        rw [reckon, List.foldlM_cons, step]
        rfl
      · have kept : (b.moveOrigin d value).plainCells = a.plainCells :=
          plainCells_of_code ((code_moveOrigin d value b).trans code)
        exact kept.trans (List.append_nil _).symm

/-- The beats count and account for the tables, if numbers are queued only for literals that exist,
and then this is so again. -/
def Reckons (a : Assembly) (xs : List Beat) (b : Assembly) : Prop :=
  a.symbols.QueueInRange → b.symbols.QueueInRange ∧ Counts a xs b ∧ Accounts a xs b

theorem Reckons.trans (h : Reckons a xs b) (h' : Reckons b ys c) :
    Reckons a (xs ++ ys) c := by
  intro inRange
  obtain ⟨inRange, counts, accounts⟩ := h inRange
  obtain ⟨inRange, counts', accounts'⟩ := h' inRange
  exact ⟨inRange, counts.trans counts', accounts.trans accounts'⟩

theorem reckons_of_same (symbols : b.symbols = a.symbols) (counter : b.counter = a.counter)
    (code : b.code = a.code) : Reckons a [] b := by
  intro inRange
  refine ⟨?_, counts_of_same counter code, accounts_of_symbols symbols⟩
  rw [symbols]
  exact inRange

theorem reckons_of_counts {origins : Prop} {p q : Position}
    (read : Reads refusePool origins False p q) (h : Counts p.2 xs q.2) :
    Reckons p.2 xs q.2 := by
  intro inRange
  obtain ⟨texts, interned, -⟩ := pays_of_reads read
  exact ⟨inRange.interns interned, h, accounts_of_keeps (silent_of_reads read).keeps interned⟩

theorem reckons_of_reads {p q : Position} (h : Reads refusePool False False p q) :
    Reckons p.2 (newCells p.2 q.2) q.2 :=
  reckons_of_counts h (counts_of_reads h)

theorem reckons_labels (c : Cursor) (a : Assembly) :
    Reckons a (.statement :: labelBeats c a) (readLabels none c a).2.2 := by
  intro inRange
  have read : Reads refusePool False True (c, a) (readLabels none c a).2 :=
    reads_readLabels trivial none c a
  obtain ⟨texts, interned, -⟩ := pays_of_reads read
  have labels := labels_labelBeats c a
  have begun : Accounts a [.statement] a := accounts_of_symbols rfl
  exact ⟨inRange.interns interned, labels.counts, begun.trans labels.accounts⟩

/-- Whether a directive moves the counter or not, its beats are right. -/
theorem reckons_order (c : Cursor) (a : Assembly) :
    Reckons a (orderBeats c a) (order refusePool c a).2.2 := by
  rw [orderBeats]
  cases named : orderDirective? a.dialect c with
  | none =>
    exact reckons_of_reads (p := (c, a))
      (reads_order c a fun d e found => by simp [named] at found)
  | some found =>
    obtain ⟨d, e⟩ := found
    cases moves : d.movesOrigin with
    | true =>
      have read : Reads refusePool True False (c, a) (order refusePool c a).2 :=
        reads_order c a fun _ _ _ _ => trivial
      simp only [moves, if_true]
      refine reckons_of_counts (p := (c, a)) read ?_
      rw [order_of_movesOrigin named moves]
      exact counts_origin moves e a
    | false =>
      simp only [moves, Bool.false_eq_true, if_false]
      refine reckons_of_reads (p := (c, a)) (reads_order c a fun d' e' found moved => ?_)
      rw [named] at found
      cases found
      simp [moves] at moved

/-- An order that asks for a pool adds no word of its own. -/
theorem orderBeats_of_asksPool {c : Cursor} {a : Assembly} (h : asksPool a.dialect c = true) :
    orderBeats c a = [] := by
  obtain ⟨⟨d, e⟩, found, pools⟩ := (Option.any_eq_true ..).mp h
  have still : d.movesOrigin = false := by
    cases d with
    | constants | ltorg => rfl
    | _ => cases pools
  simp [orderBeats, found, still, order_of_asksPool h, newCells, refusePool, note]

/-- A literal that is placed has the address where its text begins. -/
theorem address_placeLiteral {id : LiteralId} {a : Assembly} (inRange : a.symbols.QueueInRange)
    (next : a.symbols.nextWaiting? = some id) :
    (placeLiteral id a).symbols.address? id = some a.location := by
  have inside : id < a.symbols.literals.size := inRange id (List.mem_of_head? next)
  obtain ⟨texts, interned, -⟩ := interns_literalBody id a
  have kept := interned.getElem? inside
  rw [placeLiteral_eq, SymbolTable.address?, SymbolTable.literal?,
    SymbolTable.literals_place_self, kept, Array.getElem?_eq_getElem inside]
  rfl

/-- Placing a literal gives an address to no other one. -/
theorem accounts_placeLiteral (id : LiteralId) {a : Assembly}
    (h : Accounts a xs (literalBody id a)) :
    Accounts a (.literal id ((placeLiteral id a).symbols.address? id) :: xs)
      (placeLiteral id a) where
  labels name entry bound := by
    have unbound : (literalBody id a).symbols.Keeps (placeLiteral id a).symbols :=
      SymbolTable.keeps_of_labels (by rw [placeLiteral_eq]; rfl)
    rw [unbound.binding] at bound
    simpa using h.labels name entry bound
  literals other address placed := by
    by_cases same : other = id
    · subst same
      rw [placed]
      exact .inr List.mem_cons_self
    · have kept : (placeLiteral id a).symbols.address? other =
          (literalBody id a).symbols.address? other := by
        simp only [placeLiteral_eq, SymbolTable.address?, SymbolTable.literal?]
        rw [SymbolTable.literals_place_of_ne _ _ _ same]
      rw [kept] at placed
      exact (h.literals other address placed).imp_right (List.mem_cons_of_mem _)

theorem reckons_literalBody {id : LiteralId} {a : Assembly}
    (stated : Reckons { a with lineNumber := a.poolLines.size + 1 } ys
      (literalStatement id a).2) :
    Reckons a (ys ++ newCells (literalStatement id a).2 (literalBody id a))
      (literalBody id a) := by
  have numbered : Reckons a [] { a with lineNumber := a.poolLines.size + 1 } :=
    reckons_of_same rfl rfl rfl
  refine (numbered.trans stated).trans ?_
  simp only [literalBody]
  split
  · exact reckons_of_reads (p := (.ofList [], _)) (reads_noted_word .refl _ 0 rfl)
  · exact reckons_of_reads (p := (.ofList [], _)) .refl

theorem reckons_placeLiteral {id : LiteralId} {a : Assembly}
    (next : a.symbols.nextWaiting? = some id)
    (body : Reckons a ys (literalBody id a)) :
    Reckons a (.literal id ((placeLiteral id a).symbols.address? id) :: ys)
      (placeLiteral id a) := by
  intro inRange
  obtain ⟨-, counts, accounts⟩ := body inRange
  refine ⟨queueInRange_placeLiteral inRange id, ⟨fun start => ?_, counts.cells⟩,
    accounts_placeLiteral id accounts⟩
  obtain ⟨start', reckoned⟩ := counts.reckoned start
  refine ⟨start', ?_⟩
  have agrees : Reckoner.step ⟨a.counter, start⟩
      (.literal id ((placeLiteral id a).symbols.address? id)) = some ⟨a.counter, start⟩ :=
    if_pos (address_placeLiteral inRange next)
  rw [reckon, List.foldlM_cons, agrees]
  exact reckoned

theorem reckons_placePool {a : Assembly} (waiting : a.symbols.hasWaiting = true)
    (literals : Reckons { a with lineCode := [], diagnostics := [] } ys
      (placeLiterals { a with lineCode := [], diagnostics := [] })) :
    Reckons a ys a.placePool := by
  have cleared : Reckons a [] { a with lineCode := [], diagnostics := [] } :=
    reckons_of_same rfl rfl rfl
  intro inRange
  obtain ⟨inRange, counts, accounts⟩ := (cleared.trans literals) inRange
  rw [List.nil_append] at counts accounts
  rw [placePool, if_pos waiting]
  refine ⟨inRange, ⟨counts.reckoned, ?_⟩, accounts.labels, accounts.literals⟩
  rw [← counts.cells]
  simp [plainCells, Cell.isPool]

theorem reckon_definitions (r : Reckoner) (bs : List Binding) :
    reckon r (bs.map fun b => .definition b.name b.value) = some r := by
  induction bs with
  | nil => rfl
  | cons b rest ih => exact ih

/-- An assignment leaves the counter alone and binds its own name only. -/
theorem definition_frame {c : Cursor} (found : definition? c a = some b) :
    b.counter = a.counter ∧ b.code = a.code ∧
      ∀ name entry, b.symbols.binding? name = some entry →
        a.symbols.binding? name = some entry ∨
          ⟨name, entry.value, none⟩ ∈ assignTrace bindings c a := by
  obtain ⟨name, d, e, outcome, c', a', named, equals, next, assigned⟩ := definition?_cases found
  obtain ⟨counter, code⟩ := counter_evaluateNext false (e.skip '=').dropBlanks a
  have binding := (silent_evaluateNext false (e.skip '=').dropBlanks a).keeps.binding
  rw [next] at counter code binding
  simp only [assignTrace, bindings, assignBindings, named, equals, next]
  obtain ⟨rfl, rfl⟩ | ⟨id, value, rfl, rfl⟩ | ⟨id, error, rfl, rfl⟩ := assigned
  · exact ⟨counter, code, fun other _ bound => .inl ((binding other).symm.trans bound)⟩
  · refine ⟨counter, code, fun other entry bound => ?_⟩
    rw [SymbolTable.binding?_bind] at bound
    split at bound
    · next same =>
      cases bound
      rw [same]
      exact .inr List.mem_cons_self
    · exact .inl ((binding other).symm.trans bound)
  · exact ⟨counter, code, fun other _ bound => .inl ((binding other).symm.trans bound)⟩

theorem assignTrace_beats (c : Cursor) (a : Assembly) : assignTrace beats c a =
    (assignTrace bindings c a).map fun b => .definition b.name b.value := by
  simp only [assignTrace]
  split
  · rfl
  · split
    · rfl
    · rfl

theorem reckons_definition {c : Cursor} (found : definition? c a = some b) :
    Reckons a (assignTrace beats c a) b := by
  intro inRange
  rw [assignTrace_beats]
  obtain ⟨c', read⟩ : ∃ c', Reads refusePool False True (c, a) (c', b) :=
    reads_definition trivial found
  obtain ⟨texts, interned, -⟩ := pays_of_reads read
  obtain ⟨counter, code, bindings⟩ := definition_frame found
  refine ⟨inRange.interns interned, ⟨fun start => ⟨start, ?_⟩, ?_⟩, ?_, ?_⟩
  · rw [reckon_definitions, counter]
  · simp [plainCells_of_code code, List.filterMap_map, Function.comp_def, Beat.cell?]
  · intro name entry bound
    refine (bindings name entry bound).imp_right fun member => .inr ?_
    exact List.mem_map.mpr ⟨_, member, rfl⟩
  · intro id address placed
    exact .inl (by rw [← interned.address?, placed])

theorem traces_beats : Traces beats fun _ => Reckons where
  refl _ _ := reckons_of_same rfl rfl rfl
  trans _ := Reckons.trans
  note _ _ _ _ := reckons_of_same rfl rfl rfl
  comment _ _ := reckons_of_same rfl rfl rfl
  labels _ := reckons_labels
  order _ := reckons_order
  asks _ c a asks := by
    simp only [beats, orderBeats_of_asksPool asks]
    exact reckons_of_same rfl rfl rfl
  assign _ := reckons_definition
  asked _ _ := reckons_of_same rfl rfl rfl
  literal next _ stated := reckons_placeLiteral next (reckons_literalBody stated)
  pool _ := reckons_placePool

theorem counts_passOne (source : Source) {a : Assembly} (inRange : a.symbols.QueueInRange) :
    Counts { a with location := 0 } (passOneBeats source a) (a.passOne source).2 ∧
      Accounts a (passOneBeats source a) (a.passOne source).2 := by
  obtain ⟨-, counts, accounts⟩ := traces_beats.passOne
    (fun _ _ _ _ _ => reckons_of_same rfl rfl rfl) source a inRange
  exact ⟨counts, accounts.labels, accounts.literals⟩

/-- In every first pass the counter begins at zero and can be reckoned from the beats. Their cells
are exactly those that the pass adds, and what the tables newly say is among them. Without an origin
directive in between, words in succession have consecutive locations. -/
theorem location_counter_reckoned (dialect : Dialect) (passes : List Pass) (source : Source) :
    let a := session passes (init dialect)
    let b := (a.passOne source).2
    let beats := passOneBeats source a
    (∃ start, reckon ⟨⟨0, a.relocatable⟩, ⟨0, a.relocatable⟩⟩ beats = some ⟨b.counter, start⟩) ∧
      b.plainCells = a.plainCells ++ beats.filterMap Beat.cell? ∧
      Accounts a beats b ∧
      ∀ (before between after : List Beat) (x y : Cell),
        beats = before ++ Beat.cell x :: (between ++ Beat.cell y :: after) →
          (∀ beat ∈ between, beat.cell? = none ∧ beat.isOrigin = false) →
            y.location = x.location + 1 := by
  obtain ⟨k, settled, -⟩ := (settled_init dialect).session passes
  have inRange := settled.inOrder.queueInRange
  generalize session passes (init dialect) = a at inRange
  obtain ⟨counts, accounts⟩ := counts_passOne source inRange
  simp only
  generalize passOneBeats source a = beats at counts accounts ⊢
  obtain ⟨start, reckoned⟩ := counts.reckoned ⟨0, a.relocatable⟩
  refine ⟨⟨start, reckoned⟩, counts.cells, accounts, ?_⟩
  intro before between after x y split still
  rw [split] at reckoned
  exact neighbours_of_reckon reckoned still

/-- Labels before and after origin directives, one of them without a value, and a literal. -/
def originsSource : Source :=
  .ofText "origins" "A:\tORG 100\nB:\tLAC [7]\n\tBLOCK 2\nC:\tREL 5?D: JMP B\n\tORG X"

/-- Its beats up to the last label. -/
def originsBeats : List Beat :=
  [.statement, .label "A" (some (.bound 0 false false)), .origin .org 0o100,
    .statement, .label "B" (some (.bound 0o100 false false)), .cell ⟨2, 0o100, .expr 5⟩,
    .statement, .origin .block 2,
    .statement, .label "C" (some (.bound 0o103 false false)), .origin .rel 5,
    .statement, .label "D" (some (.bound 5 true false))]

/-- An origin directive without a value does not part the literal from the word before it. -/
theorem location_counter_reckoned_origins :
    let x : Cell := ⟨4, 5, .expr 12⟩
    let y : Cell := ⟨1, 6, .expr 14⟩
    let between : List Beat := [.statement, .literal 0 (some 6), .statement]
    passOneBeats originsSource (init .midas) =
        originsBeats ++ Beat.cell x :: (between ++ Beat.cell y :: []) ∧
      y.location = x.location + 1 := by
  intro x y between
  have listed : passOneBeats originsSource (init .midas) =
      originsBeats ++ Beat.cell x :: (between ++ Beat.cell y :: []) := by decide +kernel
  obtain ⟨-, -, -, neighbours⟩ := location_counter_reckoned .midas [] originsSource
  exact ⟨listed, neighbours originsBeats between [] x y listed (by decide)⟩

end Assembly

end Pds1
