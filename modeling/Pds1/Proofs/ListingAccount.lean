import Pds1.Proofs.FreshRun
import Pds1.Proofs.UnbrokenReading

/-!
# The listing accounts for the image

What the plan of the second pass lists is told apart by kind: words, source lines, lines of literal
pools and diagnostics. Since the pools of a source divide the pool lines among themselves, each pool
line is planned from the state that the first pass left, and the plan can be followed cell by cell
without the pool lines as a state. Read back row by row, the listing of a run then gives the words
of the image, every line once, and as many diagnostics as were reported.
-/

namespace Pds1

namespace Listing.Entry

/-- The source line that an entry shows, with its number. -/
def source? (e : Entry) : Option (Nat × String) :=
  e.line?.bind fun line => line.1.map fun number => (number, line.2)

/-- The line of a literal pool that an entry shows. -/
def literal? (e : Entry) : Option String :=
  e.line?.bind fun line => if line.1.isNone then some line.2 else none

end Listing.Entry

open Listing (Entry)

/-- What steps list: every word that they put and no other, some source lines, some lines of literal
pools and a number of diagnostics, each on a row of its own. -/
structure Step.Shows (steps : List Step) (sources : List (Nat × String)) (literals : List String)
    (diagnostics : Nat) : Prop where
  paired : (entries steps).filterMap Entry.word? = puts steps
  sources : (entries steps).filterMap Entry.source? = sources
  literals : (entries steps).filterMap Entry.literal? = literals
  diagnostics : (entries steps).countP Entry.isDiagnostic = diagnostics
  unbroken : ∀ e ∈ entries steps, e.Unbroken

namespace Step

theorem shows_nil : Shows [] [] [] 0 := ⟨rfl, rfl, rfl, rfl, by simp [entries]⟩

theorem Shows.append {steps steps' : List Step} {sources sources' : List (Nat × String)}
    {literals literals' : List String} {n n' : Nat} (h : Shows steps sources literals n)
    (h' : Shows steps' sources' literals' n') :
    Shows (steps ++ steps') (sources ++ sources') (literals ++ literals') (n + n') where
  paired := by
    rw [entries_append, List.filterMap_append, h.paired, h'.paired, puts_append]
  sources := by rw [entries_append, List.filterMap_append, h.sources, h'.sources]
  literals := by rw [entries_append, List.filterMap_append, h.literals, h'.literals]
  diagnostics := by rw [entries_append, List.countP_append, h.diagnostics, h'.diagnostics]
  unbroken := by
    rw [entries_append]
    exact List.forall_mem_append.mpr ⟨h.unbroken, h'.unbroken⟩

theorem Shows.of_eq {steps : List Step} {sources sources' : List (Nat × String)}
    {literals literals' : List String} {n n' : Nat} (h : Shows steps sources literals n)
    (hs : sources = sources') (hl : literals = literals') (hn : n = n') :
    Shows steps sources' literals' n' :=
  hs ▸ hl ▸ hn ▸ h

/-- Steps that list one entry show what is in it. -/
theorem shows_of_entry {steps : List Step} {e : Entry} (only : entries steps = [e])
    (paired : e.word?.toList = puts steps) (own : e.Unbroken) :
    Shows steps e.source?.toList e.literal?.toList (if e.isDiagnostic then 1 else 0) := by
  have read {α : Type} (view : Entry → Option α) :
      (entries steps).filterMap view = (view e).toList := by
    rw [only, List.filterMap_eq_flatMap_toList, List.flatMap_singleton]
  refine ⟨(read Entry.word?).trans paired, read Entry.source?, read Entry.literal?, ?_, ?_⟩
  · rw [only, List.countP_singleton]
  · rw [only]
    exact List.forall_mem_singleton.mpr own

theorem shows_report {ds : List Diagnostic} (own : ∀ d ∈ ds, d.Unbroken) (reported : Nat) :
    Shows (report ds reported) [] [] (ds.length - reported) := by
  have later : ∀ d ∈ ds.drop reported, d.Unbroken := fun d member =>
    own d (List.mem_of_mem_drop member)
  rw [← List.length_drop, report]
  generalize ds.drop reported = left at later
  induction left with
  | nil => exact shows_nil
  | cons d rest ih =>
    obtain ⟨first, others⟩ := List.forall_mem_cons.mp later
    have one : Shows [.list (.diagnostic d.message)] [] [] 1 :=
      shows_of_entry (e := .diagnostic d.message) rfl rfl first.message
    have both := one.append (ih others)
    rwa [Nat.add_comm] at both

end Step

namespace LineView

/-- The source line that a view stands for. -/
def sources (v : LineView) : List (Nat × String) :=
  v.number.toList.map fun number => (number, v.text)

/-- The line of a literal pool that a view stands for. -/
def literals (v : LineView) : List String := if v.number.isNone then [v.text] else []

theorem sources_eq (v : LineView) : (Entry.source v.number v.text).source?.toList = v.sources := by
  obtain ⟨text, _ | number⟩ := v
  · rfl
  · rfl

theorem literals_eq (v : LineView) :
    (Entry.source v.number v.text).literal?.toList = v.literals := by
  obtain ⟨text, _ | number⟩ := v
  · rfl
  · rfl

variable {v : LineView}

theorem shows_source (text : OneLine v.text.toList) (listed : Bool) :
    Step.Shows (v.source listed) (if listed then [] else v.sources)
      (if listed then [] else v.literals) 0 := by
  cases listed with
  | true => exact Step.shows_nil
  | false =>
    have entry : Step.Shows (v.source false) _ _ _ :=
      Step.shows_of_entry (e := .source v.number v.text) rfl rfl text
    exact entry.of_eq v.sources_eq v.literals_eq rfl

theorem shows_word (text : OneLine v.text.toList) (listed : Bool) (location value : Int32) :
    Step.Shows (v.word listed location value) (if listed then [] else v.sources)
      (if listed then [] else v.literals) 0 := by
  cases listed with
  | true => exact Step.shows_of_entry (e := .word location value) rfl rfl trivial
  | false =>
    have entry : Step.Shows (v.word false location value) _ _ _ :=
      Step.shows_of_entry (e := .code location value v.number v.text) rfl rfl text
    exact entry.of_eq v.sources_eq v.literals_eq rfl

theorem shows_note (v : LineView) (ds : List Diagnostic) : Step.Shows (v.note ds) [] [] 0 := by
  simp only [note]
  split
  · exact ⟨rfl, rfl, rfl, rfl, by simp [Step.entries, Step.entry?]⟩
  · exact Step.shows_nil

end LineView

namespace Assembly

theorem unbroken_cellDiagnostics {a : Assembly} (h : a.Unbroken) (cell : Cell) :
    ∀ d ∈ a.cellDiagnostics cell, d.Unbroken := by
  have warned (e : Evaluation) : ∀ d ∈ e.warningDiagnostics, d.Unbroken := by
    intro d member
    obtain ⟨w, -, rfl⟩ := List.mem_map.mp member
    trivial
  obtain ⟨line, location, content⟩ := cell
  cases content with
  | word | pool => simp [cellDiagnostics]
  | expr id =>
    simp only [cellDiagnostics, cellValue]
    split
    · exact warned _
    · next e failed =>
      have quoted : e.Unbroken := a.exprs.unbroken_error h.symbols failed
      refine List.forall_mem_append.mpr ⟨warned _, ?_⟩
      exact List.forall_mem_cons.mpr ⟨quoted, List.forall_mem_singleton.mpr trivial⟩

section Cells

variable {a : Assembly} {σ : Type} (view : LineView) (pool : Nat → Nat → σ → List Step × σ)

/-- What the plan for cells shows, if each pool shows its lines: the line itself unless that has
been done, and the diagnostics that have not been reported yet. -/
theorem shows_planCells (clean : a.Unbroken) (text : OneLine view.text.toList)
    (literals : Cell → List String) (pooled : Cell → List Diagnostic) (cells : List Cell)
    (plain : ∀ cell, cell.isPool = false → literals cell = [] ∧ pooled cell = [])
    (pools : ∀ cell first count, cell.content = .pool first count → ∀ s,
      Step.Shows (pool first count s).1 [] (literals cell) (pooled cell).length)
    (listed : Bool) (reported : Nat) (ds : List Diagnostic) (s : σ)
    (own : ∀ d ∈ ds, d.Unbroken) (within : reported ≤ ds.length) :
    Step.Shows (a.planCells view pool cells listed reported ds s).1
      (if listed then [] else view.sources)
      ((if listed then [] else view.literals) ++ cells.flatMap literals)
      (ds.length - reported + (cells.flatMap a.cellDiagnostics).length +
        (cells.flatMap pooled).length) := by
  -- the cells change what is still to be shown: the line after its first word or pool, the
  -- diagnostics in front of a pool, and each evaluation adds its own
  induction cells generalizing listed reported ds s with
  | nil =>
    have both := (LineView.shows_source text listed).append (Step.shows_report own reported)
    exact both.of_eq (by simp) (by simp) (by simp)
  | cons cell rest ih =>
    obtain ⟨line, location, content⟩ := cell
    cases content with
    | word value =>
      obtain ⟨noLiterals, noDiagnostics⟩ := plain ⟨line, location, .word value⟩ rfl
      have both := (LineView.shows_word text listed location value).append
        (ih true reported ds s own within)
      exact both.of_eq (by simp) (by simp [noLiterals]) (by simp [noDiagnostics, cellDiagnostics])
    | expr id =>
      obtain ⟨noLiterals, noDiagnostics⟩ := plain ⟨line, location, .expr id⟩ rfl
      have new : ∀ d ∈ (a.cellValue id).2, d.Unbroken :=
        unbroken_cellDiagnostics clean ⟨line, location, .expr id⟩
      have both := ((view.shows_note (a.cellValue id).2).append
        (LineView.shows_word text listed location (a.cellValue id).1)).append
        (ih true reported (ds ++ (a.cellValue id).2) s (List.forall_mem_append.mpr ⟨own, new⟩)
          (Nat.le_trans within (by simp)))
      refine both.of_eq (by simp) (by simp [noLiterals]) ?_
      simp only [List.flatMap_cons, noDiagnostics, cellDiagnostics, List.length_append,
        List.length_nil]
      omega
    | pool first count =>
      have inner := pools ⟨line, location, .pool first count⟩ first count rfl s
      have both := (((LineView.shows_source text listed).append
        (Step.shows_report own reported)).append inner).append
        (ih true ds.length ds (pool first count s).2 own (Nat.le_refl _))
      refine both.of_eq (by simp) (by simp) ?_
      simp only [List.flatMap_cons, cellDiagnostics, List.length_append, List.length_nil]
      omega

end Cells

section Stateless

variable {a : Assembly}

theorem getElem?_annotateAt_of_not_mem {positions : List Nat} {i : Nat} (outside : i ∉ positions)
    (lines : Array Line) : (a.annotateAt positions lines)[i]? = lines[i]? := by
  induction positions generalizing lines with
  | nil => rfl
  | cons j rest ih =>
    simp only [List.mem_cons, not_or] at outside
    rw [annotateAt, List.foldl_cons, ← annotateAt, ih outside.2, Array.getElem?_modify,
      if_neg (Ne.symm outside.1)]

/-- The plan for the pool lines at some positions, as the first pass left them. -/
def poolSteps (a : Assembly) (positions : List Nat) : List Step :=
  (positions.filterMap fun i => a.poolLines[i]?).flatMap fun line => (a.planPoolLine line).1

/-- The plan for a source line, with the pool lines as the first pass left them. -/
def lineSteps (a : Assembly) (line : Line) : List Step :=
  (a.planCells ⟨line.text, some line.number⟩
    (fun first count (u : Unit) => (a.poolSteps (List.range' (first - 1) count), u))
    (a.cells line) false 0 line.diagnostics ()).1

theorem planPool_eq (i count : Nat) {lines : Array Line}
    (agree : ∀ j ∈ List.range' i count, lines[j]? = a.poolLines[j]?) :
    (a.planPool i count lines).1 = a.poolSteps (List.range' i count) := by
  induction count generalizing i lines with
  | zero => rfl
  | succ count ih =>
    have here := agree i (by simp)
    cases found : lines[i]? with
    | none =>
      have beyond : a.poolLines.size ≤ i := Array.getElem?_eq_none_iff.mp (here ▸ found)
      have nothing : (List.range' i (count + 1)).filterMap (fun j => a.poolLines[j]?) = [] := by
        refine List.filterMap_eq_nil_iff.mpr fun j member => Array.getElem?_eq_none ?_
        have := (List.mem_range'_1.mp member).1
        omega
      simp only [planPool, found, poolSteps, nothing]
      rfl
    | some line =>
      have later : ∀ j ∈ List.range' (i + 1) count,
          (lines.setIfInBounds i (a.planPoolLine line).2)[j]? = a.poolLines[j]? := by
        intro j member
        have := (List.mem_range'_1.mp member).1
        rw [Array.getElem?_setIfInBounds_ne (by omega)]
        exact agree j (by simp only [List.mem_range'_1] at member ⊢; omega)
      simp only [planPool, found]
      rw [ih (i + 1) later]
      simp only [poolSteps, List.range'_succ, List.filterMap_cons, ← here, found,
        List.flatMap_cons]

/-- As long as no pool line is planned twice, the pool lines need not be kept as a state. -/
theorem planCells_eq (view : LineView) (cells : List Cell) (listed : Bool) (reported : Nat)
    (ds : List Diagnostic) {lines : Array Line}
    (once : (cells.flatMap Cell.window).Nodup)
    (agree : ∀ j ∈ cells.flatMap Cell.window, lines[j]? = a.poolLines[j]?) :
    (a.planCells view (fun first count lines => a.planPool (first - 1) count lines) cells listed
        reported ds lines).1 =
      (a.planCells view (fun first count (u : Unit) =>
        (a.poolSteps (List.range' (first - 1) count), u)) cells listed reported ds ()).1 := by
  induction cells generalizing listed reported ds lines with
  | nil => rfl
  | cons cell rest ih =>
    rw [List.flatMap_cons] at once agree
    obtain ⟨-, later, apart⟩ := List.nodup_append.mp once
    obtain ⟨first, others⟩ := List.forall_mem_append.mp agree
    obtain ⟨line, location, content⟩ := cell
    cases content with
    | word value | expr id => simp only [planCells, ih _ _ _ later others]
    | pool start count =>
      -- this pool has changed its own lines only, which no later pool plans
      have untouched : ∀ j ∈ rest.flatMap Cell.window,
          (a.planPool (start - 1) count lines).2[j]? = a.poolLines[j]? := by
        intro j member
        have outside : j ∉ List.range' (start - 1) count := fun inside =>
          apart j inside j member rfl
        rw [(a.planPool_annotates (start - 1) count lines).2,
          getElem?_annotateAt_of_not_mem outside]
        exact others j member
      simp only [planCells, planPool_eq _ _ first, ih _ _ _ later untouched]

theorem planLines_eq (source : List Line) {lines : Array Line}
    (once : ((source.flatMap a.cells).flatMap Cell.window).Nodup)
    (agree : ∀ j ∈ (source.flatMap a.cells).flatMap Cell.window, lines[j]? = a.poolLines[j]?) :
    (a.planLines source lines).1.flatMap Prod.snd = source.flatMap a.lineSteps := by
  induction source generalizing lines with
  | nil => rfl
  | cons line rest ih =>
    rw [List.flatMap_cons, List.flatMap_append] at once agree
    obtain ⟨own, later, apart⟩ := List.nodup_append.mp once
    obtain ⟨first, others⟩ := List.forall_mem_append.mp agree
    have untouched : ∀ j ∈ (rest.flatMap a.cells).flatMap Cell.window,
        (a.planLine line lines).2[j]? = a.poolLines[j]? := by
      intro j member
      have outside : j ∉ (a.cells line).flatMap Cell.window := fun inside =>
        apart j inside j member rfl
      have pools : (a.planLine line lines).2 =
          a.annotateAt ((a.cells line).flatMap Cell.window) lines := a.windows_planCells ..
      rw [pools, getElem?_annotateAt_of_not_mem outside]
      exact others j member
    simp only [planLines, List.flatMap_cons, ih later untouched]
    exact congrArg (· ++ _) (planCells_eq _ _ _ _ _ own first)

/-- After a first pass, the plan of the second can be read off what the first pass left. -/
theorem Accounted.plan_eq {source : Source} (h : Accounted (source.lines.flatMap Line.code) a)
    (idle : a.lineCode = []) :
    a.plan source = source.lines.flatMap a.lineSteps ++ a.startSteps := by
  have windows := h.windows
  rw [idle, List.append_nil, ← flatMap_cells] at windows
  rw [plan, planLines_eq source.lines (windows ▸ List.nodup_range) fun _ _ => rfl]

end Stateless

section Lines

variable {a : Assembly}

/-- The pool lines that a cell stands for. -/
def pooledLines (a : Assembly) (cell : Cell) : List Line :=
  cell.window.filterMap fun i => a.poolLines[i]?

/-- The diagnostics of lines in the end. -/
def finalDiagnostics (a : Assembly) (lines : List Line) : List Diagnostic :=
  lines.flatMap fun line => (a.annotate line).diagnostics

theorem shows_planPoolLine (clean : a.Unbroken) {line : Line} (own : line.Unbroken) :
    Step.Shows (a.planPoolLine line).1 [] [line.text] (a.annotate line).diagnostics.length := by
  have cells := shows_planCells ⟨line.text, none⟩ (fun _ _ (u : Unit) => ([], u)) clean own.text
    (fun _ => []) (fun _ => []) (a.cells line) (fun _ _ => ⟨rfl, rfl⟩)
    (fun _ _ _ _ _ => Step.shows_nil) false 0 line.diagnostics () own.diagnostics (Nat.zero_le _)
  exact cells.of_eq rfl (by simp [LineView.literals]) (by simp [annotate])

theorem shows_poolSteps (clean : a.Unbroken) (positions : List Nat) :
    let lines := positions.filterMap fun i => a.poolLines[i]?
    Step.Shows (a.poolSteps positions) [] (lines.map Line.text)
      (a.finalDiagnostics lines).length := by
  intro lines
  have own : ∀ line ∈ lines, line.Unbroken := by
    intro line member
    obtain ⟨i, -, found⟩ := List.mem_filterMap.mp member
    exact clean.poolLines line (Array.mem_of_getElem? found)
  rw [poolSteps]
  change Step.Shows (lines.flatMap _) _ _ _
  generalize lines = lines at own
  induction lines with
  | nil => exact Step.shows_nil
  | cons line rest ih =>
    obtain ⟨first, others⟩ := List.forall_mem_cons.mp own
    have both := (shows_planPoolLine clean first).append (ih others)
    exact both.of_eq rfl rfl (by simp [finalDiagnostics])

theorem pooledLines_plain {cell : Cell} (plain : cell.isPool = false) :
    a.pooledLines cell = [] := by
  obtain ⟨line, location, content⟩ := cell
  cases content with
  | word | expr => rfl
  | pool first count => cases plain

theorem finalDiagnostics_append (lines lines' : List Line) :
    a.finalDiagnostics (lines ++ lines') = a.finalDiagnostics lines ++ a.finalDiagnostics lines' :=
  List.flatMap_append

theorem finalDiagnostics_flatMap (cells : List Cell) :
    cells.flatMap (fun cell => a.finalDiagnostics (a.pooledLines cell)) =
      a.finalDiagnostics (cells.flatMap a.pooledLines) :=
  List.flatMap_assoc.symm

theorem shows_lineSteps (clean : a.Unbroken) {line : Line} (own : line.Unbroken) :
    Step.Shows (a.lineSteps line) [(line.number, line.text)]
      (((a.cells line).flatMap a.pooledLines).map Line.text)
      ((a.annotate line).diagnostics.length +
        (a.finalDiagnostics ((a.cells line).flatMap a.pooledLines)).length) := by
  have pools : ∀ cell first count, cell.content = .pool first count → ∀ _u : Unit,
      Step.Shows (a.poolSteps (List.range' (first - 1) count)) []
        ((a.pooledLines cell).map Line.text) (a.finalDiagnostics (a.pooledLines cell)).length := by
    intro cell first count content _
    simp only [pooledLines, Cell.window, content]
    exact shows_poolSteps clean _
  have cells := shows_planCells ⟨line.text, some line.number⟩ (fun first count (u : Unit) =>
    (a.poolSteps (List.range' (first - 1) count), u)) clean own.text
    (fun cell => (a.pooledLines cell).map Line.text)
    (fun cell => a.finalDiagnostics (a.pooledLines cell)) (a.cells line)
    (fun cell plain => by rw [pooledLines_plain plain]; exact ⟨rfl, rfl⟩) pools false 0
    line.diagnostics () own.diagnostics (Nat.zero_le _)
  refine cells.of_eq rfl ?_ ?_
  · rw [List.map_flatMap]
    rfl
  · rw [finalDiagnostics_flatMap]
    simp only [annotate, List.length_append, Nat.sub_zero]

theorem shows_lines (clean : a.Unbroken) {lines : List Line} (own : ∀ line ∈ lines, line.Unbroken) :
    Step.Shows (lines.flatMap a.lineSteps) (lines.map fun line => (line.number, line.text))
      (((lines.flatMap a.cells).flatMap a.pooledLines).map Line.text)
      ((a.finalDiagnostics lines).length +
        (a.finalDiagnostics ((lines.flatMap a.cells).flatMap a.pooledLines)).length) := by
  induction lines with
  | nil => exact Step.shows_nil
  | cons line rest ih =>
    obtain ⟨first, others⟩ := List.forall_mem_cons.mp own
    have both := (shows_lineSteps clean first).append (ih others)
    refine both.of_eq rfl (by simp) ?_
    rw [List.flatMap_cons, List.flatMap_append, finalDiagnostics_append, List.length_append]
    simp only [finalDiagnostics, List.flatMap_cons, List.length_append]
    omega

/-- Whether a starting address was given that has no value. -/
def startFails (a : Assembly) : Bool :=
  match a.startValue? with
  | some (.error _) => true
  | _ => false

theorem shows_startSteps (clean : a.Unbroken) :
    Step.Shows a.startSteps [] [] (if a.startFails then 2 else 0) := by
  cases value : a.startValue? with
  | none =>
    simp only [startSteps, startFails, value]
    exact Step.shows_nil
  | some result =>
    cases result with
    | ok address =>
      simp only [startSteps, startFails, value]
      exact Step.shows_nil
    | error e =>
      obtain ⟨id, -, failed⟩ := Option.map_eq_some_iff.mp value
      have quoted : e.Unbroken := a.exprs.unbroken_error clean.symbols failed
      have own : ∀ d ∈ [.evaluation e, Diagnostic.startNotEvaluated], d.Unbroken :=
        List.forall_mem_cons.mpr ⟨quoted, List.forall_mem_singleton.mpr trivial⟩
      simp only [startSteps, startFails, value]
      exact Step.shows_report own 0

/-- What the whole plan shows: every source line, every pool line, and the diagnostics of both. -/
theorem Accounted.shows_plan {source : Source} (h : Accounted (source.lines.flatMap Line.code) a)
    (idle : a.lineCode = []) (clean : a.Unbroken) (own : ∀ line ∈ source.lines, line.Unbroken) :
    Step.Shows (a.plan source) (source.lines.map fun line => (line.number, line.text))
      (a.poolLines.toList.map Line.text)
      ((a.finalDiagnostics source.lines).length + (a.finalDiagnostics a.poolLines.toList).length +
        if a.startFails then 2 else 0) := by
  have pools : (source.lines.flatMap a.cells).flatMap a.pooledLines = a.poolLines.toList := by
    have windows := h.windows
    rw [idle, List.append_nil, ← flatMap_cells] at windows
    calc (source.lines.flatMap a.cells).flatMap a.pooledLines
        = ((source.lines.flatMap a.cells).flatMap Cell.window).filterMap
            (fun i => a.poolLines[i]?) := (List.filterMap_flatMap ..).symm
      _ = (List.range a.poolLines.size).filterMap (fun i => a.poolLines[i]?) := by rw [windows]
      _ = a.poolLines.toList := by
        rw [List.range_eq_range']
        simpa using filterMap_range'_getElem? [] a.poolLines.toList []
  have both := (shows_lines clean own).append (shows_startSteps clean)
  rw [pools] at both
  rw [h.plan_eq idle]
  exact both.of_eq (by simp) (by simp) rfl

end Lines

theorem map_text_readLines (lines : List Line) (a : Assembly) :
    ((readLines lines a).1.map fun line => (line.number, line.text)) =
      lines.map fun line => (line.number, line.text) := by
  induction lines generalizing a with
  | nil => rfl
  | cons line rest ih =>
    simp only [readLines]
    split
    · rfl
    · rw [List.map_cons, ih]
      rfl

end Assembly

namespace Listing

/-- A listing, row by row, accounts for an image: the rows with code columns give its words in
order, the rows with text columns show every source line and every pool line once and in order, the
diagnostics are as many as given, and there are no other rows. -/
structure Accounts (rows : List (List Char)) (source : Source) (pools : List Line) (image : Image)
    (diagnostics : Nat) : Prop where
  words : rows.filterMap codeOf? = image.words.map fun p => (p.1.toNat % 2 ^ 14, p.2.toNat)
  sources : rows.filterMap sourceOf? =
    source.lines.map fun line => (line.number, shown line.text)
  literals : rows.filterMap literalOf? = pools.map fun line => shown line.text
  diagnostics : rows.countP isDiagnosticRow = diagnostics
  complete : ∀ row ∈ rows,
    isDiagnosticRow row = true ∨ (codeOf? row).isSome = true ∨ (textOf? row).isSome = true

theorem sourceOf?_row (e : Entry) :
    sourceOf? e.row = e.source?.map fun line => (line.1, shown line.2) := by
  rw [sourceOf?, textOf?_row, Entry.source?]
  rcases e.line? with _ | ⟨_ | number, text⟩
  · rfl
  · rfl
  · rfl

theorem literalOf?_row (e : Entry) : literalOf? e.row = e.literal?.map shown := by
  rw [literalOf?, textOf?_row, Entry.literal?]
  rcases e.line? with _ | ⟨_ | number, text⟩
  · rfl
  · rfl
  · rfl

theorem complete_row (e : Entry) : isDiagnosticRow e.row = true ∨
    (codeOf? e.row).isSome = true ∨ (textOf? e.row).isSome = true := by
  rw [isDiagnosticRow_row, codeOf?_row, textOf?_row]
  cases e with
  | source => exact .inr (.inr rfl)
  | code | word => exact .inr (.inl rfl)
  | diagnostic => exact .inl rfl

/-- The columns of a word that was put show the word of the image, two bits of its address aside. -/
theorem columnsOf_masked (p : Int32 × Int32) :
    columnsOf p = ((Image.masked p).1.toNat % 2 ^ 14, (Image.masked p).2.toNat) := by
  have address : p.1.toUInt32.toNat % 2 ^ 14 = p.1.toUInt32.toNat % 0o100000 % 2 ^ 14 := by omega
  rw [Image.toNat_masked, columnsOf, address]
  rfl

/-- What is read off each row is read off all of them. -/
theorem filterMap_rows {α β : Type} {read : List Char → Option α} {own : Entry → Option β}
    {view : β → α} (each : ∀ e : Entry, read e.row = (own e).map view) (entries : List Entry) :
    (entries.map Entry.row).filterMap read = (entries.filterMap own).map view := by
  rw [List.filterMap_map, List.map_filterMap]
  exact List.filterMap_congr fun e _ => each e

/-- Listed entries, read back row by row. -/
theorem accounts_of_shows {steps : List Step} {source : Source} {pools : List Line} {n : Nat}
    {image : Image} (h : Step.Shows steps (source.lines.map fun line => (line.number, line.text))
      (pools.map Line.text) n) (words : image.words = (Step.puts steps).map Image.masked) :
    Accounts (rows (textOf (Step.entries steps)).toList) source pools image n := by
  rw [rows_textOf h.unbroken]
  refine ⟨?_, ?_, ?_, ?_, ?_⟩
  · rw [filterMap_rows codeOf?_row, h.paired, words, List.map_map]
    exact List.map_congr_left fun p _ => columnsOf_masked p
  · rw [filterMap_rows sourceOf?_row, h.sources, List.map_map]
    rfl
  · rw [filterMap_rows literalOf?_row, h.literals, List.map_map]
    rfl
  · rw [List.countP_map, ← h.diagnostics]
    exact List.countP_congr fun e _ => by rw [Function.comp_apply, isDiagnosticRow_row]
  · intro row member
    obtain ⟨e, -, rfl⟩ := List.mem_map.mp member
    exact complete_row e

end Listing

namespace Assembly

/-- The rows of a listing, read by their columns alone, give the words of the decoded image in
order, every line of the source and of the literal pools once and in order, and otherwise as many
diagnostics as the report says. -/
theorem listing_accounts_for_image (dialect : Dialect) (name text : String) :
    ∃ report source a o image, ∃ listing : String,
      assemble dialect (.ofText name text) ⟨{}, .init {} .block⟩ = (.ok report, source, a, o) ∧
      Image.decode .block o.object.sink.bytes.toList = .ok image ∧
      o.listing.bytes = listing.toUTF8.data ∧
      Listing.Accounts (Listing.rows listing.toList) (.ofText name text) a.poolLines.toList image
        report.diagnostics ∧
      report.diagnostics = (source.lines.flatMap Line.diagnostics).length +
        (a.poolLines.toList.flatMap Line.diagnostics).length + if a.startFails then 2 else 0 := by
  have accounted := accounted_ofText dialect name text
  have idle : ((init dialect).passOne (.ofText name text)).2.lineCode = [] := lineCode_passOne _ rfl
  obtain ⟨own, clean⟩ := unbroken_passOne dialect name text
  obtain ⟨report, source, o, image, run⟩ := assembles_ofText dialect name text
  have sources : ((init dialect).passOne (.ofText name text)).1.lines.map
      (fun line => (line.number, line.text)) =
        (Source.ofText name text).lines.map fun line => (line.number, line.text) :=
    map_text_readLines _ _
  generalize (init dialect).passOne (.ofText name text) = first at *
  obtain ⟨read, a⟩ := first
  have shows := accounted.shows_plan idle clean own
  have diagnosed := run.diagnosed.trans shows.diagnostics
  have words := run.words
  rw [← accounted.puts_plan idle] at words
  refine ⟨report, source, _, o, image, _, run.ran, run.decoded, run.listing, ?_, ?_⟩
  · refine Listing.accounts_of_shows (shows.of_eq sources ?_ ?_) words
    · rw [Array.toList_map, List.map_map]
      rfl
    · exact diagnosed.symm
  · rw [diagnosed, run.lines]
    simp only [finalDiagnostics, List.flatMap_map, Array.toList_map]
    rfl

end Assembly

end Pds1
