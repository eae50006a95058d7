import Pds1.Proofs.SecondPass

/-!
# The diagnostics of a second pass

A second pass that runs to its end leaves on every line the diagnostics that the line had, followed
by those of its cells in order. A pool cell adds nothing to the line it stands on: what the cells of
a pool line leave stays on the pool line. Since the pools of a source divide the pool lines among
themselves, each pool line gets its diagnostics once.
-/

namespace Pds1

namespace Step

def noted : Step → List Diagnostic
  | note diagnostics => diagnostics
  | _ => []

/-- The diagnostics that steps queue on their source line. -/
def notes (steps : List Step) : List Diagnostic := steps.flatMap noted

theorem notes_append (steps steps' : List Step) :
    notes (steps ++ steps') = notes steps ++ notes steps' :=
  List.flatMap_append

@[simp] theorem notes_report (diagnostics : List Diagnostic) (reported : Nat) :
    notes (report diagnostics reported) = [] := by
  rw [notes, List.flatMap_eq_nil_iff]
  intro step member
  obtain ⟨d, -, rfl⟩ := List.mem_map.mp member
  rfl

end Step

namespace LineView

@[simp] theorem notes_source (v : LineView) (listed : Bool) :
    Step.notes (v.source listed) = [] := by
  cases listed with
  | false => rfl
  | true => rfl

@[simp] theorem notes_word (v : LineView) (listed : Bool) (location value : Int32) :
    Step.notes (v.word listed location value) = [] := rfl

theorem notes_note (v : LineView) (diagnostics : List Diagnostic) :
    Step.notes (v.note diagnostics) = if v.number.isSome then diagnostics else [] := by
  simp only [note]
  split
  · simp [Step.notes, Step.noted]
  · rfl

end LineView

namespace Assembly

variable (a : Assembly)

/-- What a cell leaves on its line. -/
def cellDiagnostics (cell : Cell) : List Diagnostic :=
  match cell.content with
  | .expr id => (a.cellValue id).2
  | _ => []

/-- A line with the diagnostics of its cells. -/
def annotate (line : Line) : Line :=
  { line with diagnostics := line.diagnostics ++ (a.cells line).flatMap a.cellDiagnostics }

/-- Annotates the lines at some positions, as far as there are any. -/
def annotateAt (positions : List Nat) (lines : Array Line) : Array Line :=
  positions.foldl (fun lines i => lines.modify i a.annotate) lines

theorem annotateAt_append (positions positions' : List Nat) (lines : Array Line) :
    a.annotateAt (positions ++ positions') lines =
      a.annotateAt positions' (a.annotateAt positions lines) :=
  List.foldl_append

theorem annotateAt_of_outside {positions : List Nat} {lines : Array Line}
    (outside : ∀ i ∈ positions, lines.size ≤ i) : a.annotateAt positions lines = lines := by
  induction positions with
  | nil => rfl
  | cons i rest ih =>
    have same : lines.modify i a.annotate = lines := by
      apply Array.ext_getElem?
      intro j
      rw [Array.getElem?_modify]
      split
      · next here =>
        subst here
        rw [Array.getElem?_eq_none (outside i (by simp))]
        rfl
      · rfl
    rw [annotateAt, List.foldl_cons, same]
    exact ih fun j member => outside j (by simp [member])

theorem getElem?_annotateAt_range (n : Nat) (lines : Array Line) (j : Nat) :
    (a.annotateAt (List.range n) lines)[j]? =
      if j < n then lines[j]?.map a.annotate else lines[j]? := by
  induction n with
  | zero => simp [annotateAt]
  | succ n ih =>
    rw [List.range_succ, annotateAt_append]
    simp only [annotateAt, List.foldl_cons, List.foldl_nil, Array.getElem?_modify]
    rw [← annotateAt, ih]
    rcases Nat.lt_trichotomy j n with below | rfl | above
    · rw [if_neg (by omega), if_pos below, if_pos (by omega)]
    · simp
    · rw [if_neg (by omega), if_neg (by omega), if_neg (by omega)]

theorem annotateAt_range (lines : Array Line) :
    a.annotateAt (List.range lines.size) lines = lines.map a.annotate := by
  apply Array.ext_getElem?
  intro j
  rw [getElem?_annotateAt_range, Array.getElem?_map]
  split
  · rfl
  · next outside =>
    rw [Array.getElem?_eq_none (by omega)]
    rfl

section Cells

variable {σ : Type} (view : LineView) (pool : Nat → Nat → σ → List Step × σ)

/-- The diagnostics of a line in the end. -/
theorem diagnostics_planCells (cells : List Cell) (listed : Bool) (reported : Nat)
    (ds : List Diagnostic) (s : σ) :
    (a.planCells view pool cells listed reported ds s).2.1 =
      ds ++ cells.flatMap a.cellDiagnostics := by
  induction cells generalizing listed reported ds s with
  | nil => simp [planCells]
  | cons cell rest ih =>
    obtain ⟨line, location, content⟩ := cell
    cases content with
    | word value => simp [planCells, ih, cellDiagnostics]
    | expr id => simp [planCells, ih, cellDiagnostics]
    | pool first count => simp [planCells, ih, cellDiagnostics]

/-- If the plan for a pool queues nothing, the plan for a source line queues what the line's own
cells leave, and the plan for a pool line queues nothing. -/
theorem notes_planCells (silent : ∀ first count s, Step.notes (pool first count s).1 = [])
    (cells : List Cell) (listed : Bool) (reported : Nat) (ds : List Diagnostic) (s : σ) :
    Step.notes (a.planCells view pool cells listed reported ds s).1 =
      if view.number.isSome then cells.flatMap a.cellDiagnostics else [] := by
  induction cells generalizing listed reported ds s with
  | nil => simp [planCells, Step.notes_append]
  | cons cell rest ih =>
    obtain ⟨line, location, content⟩ := cell
    cases content with
    | word value => simp [planCells, Step.notes_append, ih, cellDiagnostics]
    | expr id =>
      simp only [planCells, Step.notes_append, LineView.notes_note, LineView.notes_word, ih,
        List.append_nil, List.flatMap_cons, cellDiagnostics]
      split
      · rfl
      · rfl
    | pool first count => simp [planCells, Step.notes_append, ih, cellDiagnostics, silent]

end Cells

theorem planPoolLine_eq (line : Line) : (a.planPoolLine line).2 = a.annotate line := by
  simp only [planPoolLine, diagnostics_planCells]
  rfl

theorem notes_planPoolLine (line : Line) : Step.notes (a.planPoolLine line).1 = [] :=
  a.notes_planCells ⟨line.text, none⟩ _ (fun _ _ _ => rfl) _ _ _ _ _

/-- Planning a stretch of pool lines annotates them and queues nothing on the source line. -/
theorem planPool_annotates (i count : Nat) (lines : Array Line) :
    Step.notes (a.planPool i count lines).1 = [] ∧
      (a.planPool i count lines).2 = a.annotateAt (List.range' i count) lines := by
  induction count generalizing i lines with
  | zero => exact ⟨rfl, rfl⟩
  | succ count ih =>
    cases found : lines[i]? with
    | none =>
      have beyond : lines.size ≤ i := Array.getElem?_eq_none_iff.mp found
      simp only [planPool, found]
      refine ⟨rfl, (a.annotateAt_of_outside fun j member => ?_).symm⟩
      have := (List.mem_range'_1.mp member).1
      omega
    | some line =>
      obtain ⟨queued, rest⟩ := ih (i + 1) (lines.setIfInBounds i (a.annotate line))
      have here : lines.setIfInBounds i (a.annotate line) = lines.modify i a.annotate := by
        apply Array.ext_getElem?
        intro j
        rw [Array.getElem?_setIfInBounds, Array.getElem?_modify]
        split
        · next same =>
          subst same
          rw [found, if_pos (Array.getElem?_eq_some_iff.mp found).1]
          rfl
        · rfl
      simp only [planPool, found, planPoolLine_eq]
      constructor
      · rw [Step.notes_append, notes_planPoolLine, queued, List.nil_append]
      · rw [rest, here]
        rfl

/-- The pools of some cells annotate the lines they stand for. -/
theorem windows_planCells (view : LineView) (cells : List Cell) (listed : Bool) (reported : Nat)
    (ds : List Diagnostic) (lines : Array Line) :
    (a.planCells view (fun first count lines => a.planPool (first - 1) count lines) cells listed
      reported ds lines).2.2 = a.annotateAt (cells.flatMap Cell.window) lines := by
  induction cells generalizing listed reported ds lines with
  | nil => rfl
  | cons cell rest ih =>
    obtain ⟨line, location, content⟩ := cell
    cases content with
    | word value => exact ih ..
    | expr id => exact ih ..
    | pool first count =>
      rw [List.flatMap_cons, annotateAt_append, Cell.window,
        ← (a.planPool_annotates (first - 1) count lines).2]
      exact ih ..

theorem notes_planLine (line : Line) (lines : Array Line) :
    Step.notes (a.planLine line lines).1 = (a.cells line).flatMap a.cellDiagnostics :=
  a.notes_planCells ⟨line.text, some line.number⟩ _
    (fun first count lines => (a.planPool_annotates (first - 1) count lines).1) _ _ _ _ _

/-- Carrying out the plans of a source annotates its lines, and planning them annotates the lines
of its pools. -/
theorem planLines_annotates (source : List Line) (lines : Array Line) :
    ((a.planLines source lines).1.map fun plan =>
        { plan.1 with diagnostics := plan.1.diagnostics ++ Step.notes plan.2 }) =
      source.map a.annotate ∧
    (a.planLines source lines).2 =
      a.annotateAt ((source.flatMap a.cells).flatMap Cell.window) lines := by
  induction source generalizing lines with
  | nil => exact ⟨rfl, rfl⟩
  | cons line rest ih =>
    obtain ⟨later, pools⟩ := ih (a.planLine line lines).2
    simp only [planLines]
    constructor
    · rw [List.map_cons, later, List.map_cons, notes_planLine]
      rfl
    · rw [pools, List.flatMap_cons, List.flatMap_append, annotateAt_append]
      exact congrArg _ (a.windows_planCells ..)

end Assembly

namespace Outputs

/-- A plan that is carried out in full queues its notes. -/
theorem line_of_runSteps {steps : List Step} {line line' : Line} {o o' : Outputs}
    (ran : o.runSteps steps line = (.ok (), line', o')) :
    line' = { line with diagnostics := line.diagnostics ++ Step.notes steps } := by
  induction steps generalizing line o with
  | nil =>
    cases ran
    simp [Step.notes]
  | cons step rest ih =>
    cases step with
    | note ds =>
      rw [ih ran]
      simp [Step.notes, Step.noted]
    | list entry =>
      rw [runSteps] at ran
      split at ran
      · exact ih ran
      · cases ran
    | put location word =>
      rw [runSteps] at ran
      split at ran
      · exact ih ran
      · cases ran

theorem lines_of_runLines {plans : List (Line × List Step)} {lines : List Line} {o o' : Outputs}
    (ran : o.runLines plans = (.ok (), lines, o')) :
    lines = plans.map fun plan =>
      { plan.1 with diagnostics := plan.1.diagnostics ++ Step.notes plan.2 } := by
  induction plans generalizing lines o with
  | nil =>
    cases ran
    rfl
  | cons plan rest ih =>
    rw [runLines] at ran
    split at ran
    · cases ran
    · next line v first =>
      generalize later : v.runLines rest = r at ran
      obtain ⟨result, lines', w⟩ := r
      cases ran
      rw [List.map_cons, ← ih later, line_of_runSteps first]

end Outputs

namespace Assembly

/-- A second pass that succeeds after a first one annotates every line, those of the pools
included. -/
theorem Accounted.passTwo_annotates {a a' : Assembly} {source source' : Source}
    (h : Accounted (source.lines.flatMap Line.code) a) (idle : a.lineCode = []) {o o' : Outputs}
    {report : Report} (ran : a.passTwo source o = (.ok report, source', a', o')) :
    source'.lines = source.lines.map a.annotate ∧
      a' = { a with poolLines := a.poolLines.map a.annotate } := by
  obtain ⟨lines, pools⟩ := a.planLines_annotates source.lines a.poolLines
  have windows := h.windows
  rw [idle, List.append_nil, ← flatMap_cells] at windows
  rw [windows, annotateAt_range] at pools
  simp only [passTwo] at ran
  split at ran
  · cases ran
  · next _ done _ listed =>
    have filed := Outputs.lines_of_runLines listed
    simp only [Prod.mk.injEq] at ran
    obtain ⟨-, rfl, rfl, -⟩ := ran
    exact ⟨filed.trans lines, by rw [pools]⟩

end Assembly

end Pds1
