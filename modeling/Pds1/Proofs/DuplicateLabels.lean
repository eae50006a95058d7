import Pds1.Proofs.Bindings

/-!
# Which lines complain about duplicate labels

At each point of a first pass the symbol table shows the bindings made so far, and the lines show
which labels had been bound before. Only labels and assignments bind names, and a label complains on
the line it stands on, be it a line of the source or the line of a literal in a pool. A pool that
interrupts a line leaves the complaints of that line as they are.
-/

namespace Pds1

namespace Assembly

/-- From `a` to `b` nothing is bound and no pool line is added. -/
structure Silent (a b : Assembly) : Prop where
  keeps : a.symbols.Keeps b.symbols
  complaints : duplicates b.diagnostics = duplicates a.diagnostics
  poolLines : b.poolLines = a.poolLines

variable {a b c : Assembly}

theorem silent_of_same (symbols : b.symbols = a.symbols)
    (diagnostics : b.diagnostics = a.diagnostics) (poolLines : b.poolLines = a.poolLines) :
    Silent a b :=
  ⟨SymbolTable.keeps_of_labels (by rw [symbols]), by rw [diagnostics], poolLines⟩

theorem Silent.trans (h : Silent a b) (h' : Silent b c) : Silent a c :=
  ⟨h.keeps.trans h'.keeps, h'.complaints.trans h.complaints, h'.poolLines.trans h.poolLines⟩

theorem silent_note (a : Assembly) {d : Diagnostic} (other : d.duplicate? = none) :
    Silent a (a.note d) :=
  ⟨SymbolTable.keeps_of_labels rfl, duplicates_of_other other, rfl⟩

theorem silent_noteIf (a : Assembly) (condition : Bool) {d : Diagnostic}
    (other : d.duplicate? = none) : Silent a (a.noteIf condition d) := by
  cases condition with
  | false => exact silent_of_same rfl rfl rfl
  | true => exact silent_note a other

theorem silent_operand {c c' : Cursor} {id : ExprId} (read : a.operand c = (id, c', b)) :
    Silent a b := by
  obtain ⟨grown, -⟩ := operand_grows read
  exact ⟨grown.keeps, grown.complaints, by rw [operand_frame read]⟩

theorem silent_valueNow (a : Assembly) (id : ExprId) : Silent a (a.valueNow id).2 := by
  refine ⟨SymbolTable.keeps_of_labels rfl, ?_, rfl⟩
  simp [valueNow, duplicates_append, duplicates_warnings]

theorem silent_emitField (a : Assembly) (op : Operator) (right code : Int32) (id : ExprId) :
    Silent a (a.emitField op right code id) := by
  simp only [emitField]
  split
  · exact silent_of_same rfl rfl rfl
  · exact silent_of_same rfl rfl rfl

theorem silent_moveOrigin (a : Assembly) (d : Directive) (value : Int32) :
    Silent a (a.moveOrigin d value) := by
  simp only [moveOrigin]
  split
  · exact silent_of_same rfl rfl rfl
  · exact silent_of_same rfl rfl rfl
  · exact silent_of_same rfl rfl rfl

/-- A move either binds nothing or, if names may be bound, binds one. -/
theorem Move.silent_or_binds {origins binds : Prop} {p q : Position}
    (h : Move refusePool origins binds p q) :
    Silent p.2 q.2 ∨ binds ∧ ∃ b name label, Silent p.2 b ∧
      q.2.symbols = b.symbols.bind name label := by
  cases h with
  | skip | log | comment | word | stop => exact .inl (silent_of_same rfl rfl rfl)
  | note _ a d other => exact .inl (silent_note a other)
  | label _ a name allowed =>
    exact .inr ⟨allowed, a, name, _, silent_of_same rfl rfl rfl, symbols_bindLabel a name⟩
  | pool _ a => exact .inl (silent_note a rfl)
  | operand read => exact .inl (silent_operand read)
  | expr read valid => exact .inl ((silent_operand read).trans (silent_of_same rfl rfl rfl))
  | field read masks right code => exact .inl ((silent_operand read).trans (silent_emitField ..))
  | value read valid => exact .inl ((silent_operand read).trans (silent_valueNow ..))
  | @origin _ a b b' _ _ id read valid value known d =>
    obtain rfl : (b.valueNow id).2 = b' := congrArg Prod.snd known
    exact .inl (((silent_operand read).trans (silent_valueNow b id)).trans (silent_moveOrigin ..))
  | @assign a b b' _ _ id read valid value known name allowed =>
    obtain rfl : (b.valueNow id).2 = b' := congrArg Prod.snd known
    exact .inr ⟨allowed, _, name, _, (silent_operand read).trans (silent_valueNow b id), rfl⟩
  | stopAt read => exact .inl ((silent_operand read).trans (silent_of_same rfl rfl rfl))

theorem silent_of_reads {origins : Prop} {p q : Position} (h : Reads refusePool origins False p q) :
    Silent p.2 q.2 := by
  induction h with
  | refl => exact silent_of_same rfl rfl rfl
  | tail _ m ih =>
    rcases m.silent_or_binds with silent | ⟨allowed, -⟩
    · exact ih.trans silent
    · exact allowed.elim

/-- Along a first pass no entry changes its name. -/
theorem Path.keepsNames {ts : List Task} (h : Path a ts b) : a.symbols.KeepsNames b.symbols := by
  induction h with
  | refl => exact SymbolTable.keepsNames_of_labels rfl
  | task _ _ ih | turn _ _ _ _ _ ih | restart _ ih | mark _ _ _ ih => exact ih
  | move _ m ih =>
    rcases m.silent_or_binds with silent | ⟨-, b, name, label, silent, bound⟩
    · exact ih.trans silent.keeps.names
    · rw [bound]
      exact (ih.trans silent.keeps.names).trans (b.symbols.keepsNames_bind name label)
  | place _ _ _ _ ih => exact ih.trans (SymbolTable.keepsNames_of_labels rfl)

/-- The tables and the lines show the bindings so far, while the line `here` is being read, if any
is. -/
structure Told (bs : List Binding) (here : Option Site) (a : Assembly) : Prop where
  table : a.symbols.Records bs
  queued : duplicates a.diagnostics = here.elim [] (Binding.repeatedAt bs)
  filed : ∀ (i : Nat) (line : Line), a.poolLines[i]? = some line →
    duplicates line.diagnostics = Binding.repeatedAt bs (.pool (i + 1))
  /-- Labels stand on pool lines that are there, or on the one being read. -/
  numbered : ∀ b ∈ bs, ∀ n, b.label = some (.pool n) → n ≤ a.poolLines.size ∨ here = b.label
  next : ∀ n, here = some (.pool n) → n = a.poolLines.size + 1

/-- From `a` to `b` the bindings `new` are made, by the line `here` and by pools. -/
structure Tells (here : Option Site) (a : Assembly) (new : List Binding) (b : Assembly) :
    Prop where
  sites : ∀ e ∈ new, ∀ n, e.label = some (.source n) → here = e.label
  told : ∀ bs, Told bs here a → Told (bs ++ new) here b

section Trace

variable {here : Option Site} {bs new new' : List Binding}

theorem Tells.trans (h : Tells here a new b) (h' : Tells here b new' c) :
    Tells here a (new ++ new') c := by
  refine ⟨List.forall_mem_append.mpr ⟨h.sites, h'.sites⟩, ?_⟩
  intro bs start
  rw [← List.append_assoc]
  exact h'.told _ (h.told bs start)

theorem Told.silent (h : Told bs here a) (silent : Silent a b) : Told bs here b := by
  refine ⟨h.table.keeps silent.keeps, silent.complaints.trans h.queued, ?_, ?_, ?_⟩
  · rw [silent.poolLines]
    exact h.filed
  · rw [silent.poolLines]
    exact h.numbered
  · rw [silent.poolLines]
    exact h.next

theorem Silent.tells (h : Silent a b) : Tells here a [] b := by
  refine ⟨by simp, fun bs start => ?_⟩
  rw [List.append_nil]
  exact start.silent h

theorem tells_refl (here : Option Site) (a : Assembly) : Tells here a [] a :=
  (silent_of_same rfl rfl rfl).tells

theorem poolLines_bindLabel (a : Assembly) (name : String) :
    (a.bindLabel name).poolLines = a.poolLines :=
  (emits_bindLabel a name).poolLines

/-- A label complains if its name is bound already. -/
theorem duplicates_bindLabel (h : a.symbols.Records bs) (site : Site) (name : String)
    (queued : duplicates a.diagnostics = Binding.repeatedAt bs site) :
    duplicates (a.bindLabel name).diagnostics =
      Binding.repeatedAt (bs ++ [⟨name, a.location, some site⟩]) site := by
  rw [Binding.repeatedAt_append, ← queued, bindLabel, h.isSome_binding? name]
  cases twice : bs.any fun b => b.name = name with
  | false => simp [noteIf, Binding.repeated, twice]
  | true => simp [noteIf, note, duplicates, Diagnostic.duplicate?, Binding.repeated, twice]

theorem tells_bindLabel (site : Site) (a : Assembly) (name : String) :
    Tells (some site) a [⟨name, a.location, some site⟩] (a.bindLabel name) := by
  constructor
  · intro e member n label
    obtain rfl := List.mem_singleton.mp member
    rfl
  · intro bs start
    refine ⟨?_, duplicates_bindLabel start.table site name start.queued, ?_, ?_, ?_⟩
    · rw [symbols_bindLabel]
      exact start.table.bind ⟨name, a.location, some site⟩ _ _
    · intro i line found
      rw [poolLines_bindLabel] at found
      rw [Binding.repeatedAt_append_of_elsewhere, start.filed i line found]
      intro e member label
      obtain rfl := List.mem_singleton.mp member
      -- the line being read has not been filed
      have inside := (Array.getElem?_eq_some_iff.mp found).1
      have next := start.next (i + 1) label
      omega
    · rw [poolLines_bindLabel]
      intro e member n label
      rcases List.mem_append.mp member with old | own
      · exact start.numbered e old n label
      · obtain rfl := List.mem_singleton.mp own
        exact .inr rfl
    · rw [poolLines_bindLabel]
      exact start.next

/-- A line is begun that has no labels so far. -/
theorem Told.begin (h : Told bs none a) {site : Site} (unused : ∀ e ∈ bs, e.label ≠ some site)
    (next : ∀ n, site = .pool n → n = a.poolLines.size + 1) : Told bs (some site) a where
  table := h.table
  queued := h.queued.trans (Binding.repeatedAt_eq_nil unused).symm
  filed := h.filed
  numbered e member n label := by
    rcases h.numbered e member n label with old | none
    · exact .inl old
    · cases none.trans label
  next n same := next n (Option.some.inj same)

/-- Without the complaints of a source line. -/
theorem Told.clear (h : Told bs here a) (outside : ∀ n, here ≠ some (.pool n))
    (symbols : b.symbols = a.symbols) (poolLines : b.poolLines = a.poolLines)
    (diagnostics : b.diagnostics = []) : Told bs none b where
  table := symbols ▸ h.table
  queued := by rw [diagnostics]; rfl
  filed := poolLines ▸ h.filed
  numbered e member n label := by
    rw [poolLines]
    rcases h.numbered e member n label with old | own
    · exact .inl old
    · exact absurd (own.trans label) (outside n)
  next n none := by cases none

/-- Its complaints are still right when pools have been placed. -/
theorem Told.resume (h : Told bs here a) (outside : ∀ n, here ≠ some (.pool n))
    (pooled : Told (bs ++ new) none b) (sites : ∀ e ∈ new, ∀ n, e.label ≠ some (.source n))
    (symbols : c.symbols = b.symbols) (poolLines : c.poolLines = b.poolLines)
    (diagnostics : c.diagnostics = a.diagnostics) : Told (bs ++ new) here c where
  table := symbols ▸ pooled.table
  queued := by
    rw [diagnostics, h.queued]
    cases here with
    | none => rfl
    | some site =>
      cases site with
      | pool n => exact absurd rfl (outside n)
      | source n =>
        exact (Binding.repeatedAt_append_of_elsewhere bs fun e member => sites e member n).symm
  filed := poolLines ▸ pooled.filed
  numbered e member n label := by
    rw [poolLines]
    rcases pooled.numbered e member n label with old | none
    · exact .inl old
    · cases none.trans label
  next n own := absurd own (outside n)

theorem silent_literalBody (id : LiteralId) (a : Assembly) :
    Silent (literalStatement id a).2 (literalBody id a) := by
  simp only [literalBody]
  split
  · exact (silent_note _ rfl).trans (silent_of_same rfl rfl rfl)
  · exact silent_of_same rfl rfl rfl

/-- A literal files its complaints on the pool line that it leaves. -/
theorem tells_placeLiteral {id : LiteralId} {a : Assembly}
    (stated : Tells (some (.pool (a.poolLines.size + 1)))
      { a with lineNumber := a.poolLines.size + 1 } new (literalStatement id a).2) :
    Tells none a new (placeLiteral id a) := by
  have poolLines : (literalBody id a).poolLines = a.poolLines := by
    obtain ⟨cells, added⟩ := emits_literalBody id a
    exact added.poolLines
  constructor
  · intro e member n label
    cases (stated.sites e member n label).trans label
  · intro bs start
    have unused : ∀ e ∈ bs, e.label ≠ some (.pool (a.poolLines.size + 1)) := by
      intro e member label
      rcases start.numbered e member _ label with old | none
      · omega
      · cases none.trans label
    have begun : Told bs (some (.pool (a.poolLines.size + 1)))
        { a with lineNumber := a.poolLines.size + 1 } :=
      (start.begin unused fun n same => (Site.pool.inj same).symm).silent
        (silent_of_same rfl rfl rfl)
    have body := (stated.told bs begun).silent (silent_literalBody id a)
    rw [placeLiteral_eq]
    refine ⟨body.table.keeps (SymbolTable.keeps_of_labels rfl), rfl, ?_, ?_, by simp⟩
    · intro i line found
      rw [Array.getElem?_push] at found
      split at found
      · next last =>
        cases found
        rw [last, poolLines]
        exact body.queued
      · exact body.filed i line found
    · intro e member n label
      rw [Array.size_push]
      rcases body.numbered e member n label with old | own
      · exact .inl (Nat.le_succ_of_le old)
      · cases own.trans label
        exact .inl (by rw [poolLines])

/-- A pool interrupts a source line, or comes after the last one. -/
theorem tells_placePool {a : Assembly} (outside : ∀ n, here ≠ some (.pool n))
    (waiting : a.symbols.hasWaiting = true)
    (literals : Tells none { a with lineCode := [], diagnostics := [] } new
      (placeLiterals { a with lineCode := [], diagnostics := [] })) :
    Tells here a new a.placePool := by
  have sites : ∀ e ∈ new, ∀ n, e.label ≠ some (.source n) := by
    intro e member n label
    cases (literals.sites e member n label).trans label
  rw [placePool, if_pos waiting]
  refine ⟨fun e member n label => absurd label (sites e member n), fun bs start => ?_⟩
  have cleared := start.clear (b := { a with lineCode := [], diagnostics := [] }) outside rfl rfl
    rfl
  exact start.resume outside (literals.told bs cleared) sites rfl rfl rfl

/-- An assignment binds a name to its value without a complaint. -/
theorem Told.assign (h : Told bs here a) (name : String) (value : Int32)
    (relocatable constant : Bool) :
    Told (bs ++ [⟨name, value, none⟩]) here
      { a with symbols := a.symbols.bind name (.bound value relocatable constant) } := by
  have elsewhere (site : Site) :
      Binding.repeatedAt (bs ++ [⟨name, value, none⟩]) site = Binding.repeatedAt bs site :=
    Binding.repeatedAt_append_of_elsewhere bs (by simp)
  refine ⟨h.table.bind ⟨name, value, none⟩ _ _, ?_, ?_, ?_, h.next⟩
  · rw [h.queued]
    cases here with
    | none => rfl
    | some site => exact (elsewhere site).symm
  · intro i line found
    rw [elsewhere, h.filed i line found]
  · intro e member n label
    rcases List.mem_append.mp member with old | own
    · exact h.numbered e old n label
    · obtain rfl := List.mem_singleton.mp own
      cases label

theorem silent_evaluateNext (number : Bool) (d : Cursor) (a : Assembly) :
    Silent a (evaluateNext number d a).2.2 := by
  obtain ⟨id, c', b, read, ⟨-, next⟩ | ⟨-, outcome, b', known, next⟩⟩ :=
    evaluateNext_cases number d a
  · rw [next]
    exact silent_operand read
  · obtain rfl : (b.valueNow id).2 = b' := congrArg Prod.snd known
    rw [next]
    exact (silent_operand read).trans (silent_valueNow b id)

theorem tells_definition {c : Cursor} (found : definition? c a = some b) :
    Tells here a (assignTrace bindings c a) b := by
  obtain ⟨name, d, e, outcome, c', a', named, equals, next, assigned⟩ := definition?_cases found
  have silent := silent_evaluateNext false (e.skip '=').dropBlanks a
  rw [next] at silent
  simp only [assignTrace, bindings, assignBindings, named, equals, next]
  obtain ⟨rfl, rfl⟩ | ⟨id, value, rfl, rfl⟩ | ⟨id, error, rfl, rfl⟩ := assigned
  · exact (silent.trans (silent_note a' rfl)).tells
  · exact ⟨by simp, fun bs start => (start.silent silent).assign name value _ _⟩
  · exact ((silent.trans (silent_note a' rfl)).trans (silent_note _ rfl)).tells

theorem traces_bindings : Traces bindings Tells where
  refl := tells_refl
  trans _ := Tells.trans
  note _ a _ other := (silent_note a other).tells
  comment _ a := by
    have counted : Silent a { a with comments := a.comments + 1 } := silent_of_same rfl rfl rfl
    exact counted.tells
  labels site := labelTrace_induction _ (tells_refl _) (tells_bindLabel site _ _).trans none
  order _ c a := by
    have read : Reads refusePool True False (c, a) (order refusePool c a).2 :=
      reads_order c a fun _ _ _ _ => trivial
    exact (silent_of_reads read).tells
  asks here _ a _ := tells_refl here a
  assign _ := tells_definition
  asked := tells_refl
  literal _ _ stated := by simpa [bindings] using tells_placeLiteral stated
  pool := tells_placePool

/-- The lines of a source, once read, complain about exactly those of their labels that had been
bound before. -/
structure Shown (bs : List Binding) (lines : List Line) (a : Assembly) : Prop where
  told : Told bs none a
  lines : ∀ line ∈ lines, duplicates line.diagnostics = Binding.repeatedAt bs (.source line.number)

theorem told_readLine (h : Told bs none a) {line : Line} (fresh : line.diagnostics = [])
    (unused : ∀ e ∈ bs, e.label ≠ some (.source line.number)) :
    Shown (bs ++ textTrace bindings (.source line.number) line.text
        { a with lineNumber := line.number })
      [(readLine line a).1] (readLine line a).2 := by
  have begun : Told bs (some (.source line.number)) { a with lineNumber := line.number } :=
    (h.begin unused (by simp)).silent (silent_of_same rfl rfl rfl)
  have read := (traces_bindings.text line.number line.text _).told bs begun
  simp only [readLine]
  generalize readText line.text { a with lineNumber := line.number } = r at read ⊢
  obtain ⟨kind, b⟩ := r
  have noted := read.silent (silent_noteIf b
    (kind = .unclassified && b.diagnostics.isEmpty) (d := .notParsed line.text) rfl)
  constructor
  · exact noted.clear (by simp) rfl rfl rfl
  · intro line' member
    obtain rfl := List.mem_singleton.mp member
    simpa [fileInto, fresh] using noted.queued

/-- Only the lines that are read bind labels on them. -/
theorem sites_linesTrace (lines : List Line) (a : Assembly) :
    ∀ e ∈ linesTrace bindings lines a, ∀ n, e.label = some (.source n) →
      n ∈ lines.map Line.number := by
  induction lines generalizing a with
  | nil => simp [linesTrace]
  | cons line rest ih =>
    intro e member n label
    rw [List.map_cons, List.mem_cons]
    rw [linesTrace] at member
    rcases List.mem_append.mp member with own | later
    · cases ((traces_bindings.text ..).sites e own n label).trans label
      exact .inl rfl
    · split at later
      · cases ((traces_bindings.placedPool none (by simp) _).sites e later n label).trans label
      · exact .inr (ih _ e later n label)

theorem shown_readLines {lines : List Line} (h : Told bs none a)
    (fresh : ∀ line ∈ lines, line.diagnostics = []) (distinct : (lines.map Line.number).Nodup)
    (unused : ∀ e ∈ bs, ∀ n ∈ lines.map Line.number, e.label ≠ some (.source n)) :
    Shown (bs ++ linesTrace bindings lines a) (readLines lines a).1 (readLines lines a).2 := by
  induction lines generalizing a bs with
  | nil => exact ⟨by simpa [linesTrace, readLines] using h, by simp [readLines]⟩
  | cons line rest ih =>
    rw [List.map_cons, List.nodup_cons] at distinct
    have first := told_readLine h (fresh line (by simp)) fun e member => unused e member _ (by simp)
    have own := (traces_bindings.text line.number line.text
      { a with lineNumber := line.number }).sites
    simp only [linesTrace, readLines]
    generalize textTrace bindings (.source line.number) line.text
      { a with lineNumber := line.number } = new at first own ⊢
    have number : (readLine line a).1.number = line.number := rfl
    generalize readLine line a = r at first number ⊢
    obtain ⟨line', b⟩ := r
    have rest_unused : ∀ e ∈ bs ++ new, ∀ n ∈ rest.map Line.number, e.label ≠ some (.source n) := by
      intro e member n later label
      rcases List.mem_append.mp member with old | recent
      · exact unused e old n (by simp [later]) label
      · cases (own e recent n label).trans label
        exact distinct.1 later
    simp only
    split
    -- the last line read takes the final pool, and the lines after it are left alone
    · have pool := traces_bindings.placedPool none (by simp) b
      have pooled := pool.told _ first.told
      have elsewhere : ∀ e ∈ poolTrace bindings b, ∀ n, e.label ≠ some (.source n) := by
        intro e member n label
        cases (pool.sites e member n label).trans label
      rw [← List.append_assoc]
      refine ⟨pooled.clear (by simp) rfl rfl rfl, ?_⟩
      intro other member
      rw [Binding.repeatedAt_append_of_elsewhere _ fun e member => elsewhere e member _]
      rcases List.mem_cons.mp member with rfl | unread
      · have queued : duplicates b.placePool.diagnostics = [] := pooled.queued
        simp only [fileInto, duplicates_append, queued, List.append_nil]
        exact first.lines line' (by simp)
      · rw [fresh other (by simp [unread]), Binding.repeatedAt_eq_nil]
        · rfl
        · intro e member
          exact rest_unused e member _ (List.mem_map_of_mem unread)
    · have later := ih first.told (fun other member => fresh other (by simp [member])) distinct.2
        rest_unused
      rw [← List.append_assoc]
      refine ⟨later.told, ?_⟩
      intro other member
      rcases List.mem_cons.mp member with rfl | unread
      · rw [Binding.repeatedAt_append_of_elsewhere, first.lines other (by simp)]
        intro e member label
        exact distinct.1 (number ▸ sites_linesTrace rest b e member _ label)
      · exact later.lines other unread

theorem told_init (dialect : Dialect) : Told [] none (init dialect) where
  table := SymbolTable.records_empty
  queued := rfl
  filed i line found := by simp [init] at found
  numbered e member := by cases member
  next n none := by cases none

/-- After the first pass over a text, the symbol table and all lines show its bindings. -/
theorem shown_passOne (dialect : Dialect) (name text : String) :
    Shown (passOneBindings (.ofText name text) (init dialect))
      ((init dialect).passOne (.ofText name text)).1.lines
      ((init dialect).passOne (.ofText name text)).2 := by
  have start : Told [] none { init dialect with location := 0 } :=
    (told_init dialect).silent (silent_of_same rfl rfl rfl)
  have read := shown_readLines start (fun _ => Source.diagnostics_ofText)
    (Source.numbers_ofText name text) (by simp)
  exact ⟨read.told.silent (silent_of_same rfl rfl rfl), read.lines⟩

end Trace

end Assembly

end Pds1
