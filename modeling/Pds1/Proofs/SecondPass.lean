import Pds1.Proofs.CodeOrder
import Pds1.Proofs.ImageWriting

/-!
# The second pass puts the code list

The plan of the second pass is followed through the cells of a line, the lines of a pool and the
lines of a source. The words it puts are those of the code list, each once and in order. With
outputs that have no limit, the whole plan is carried out.
-/

namespace Pds1

namespace Step

def put? : Step → Option (Int32 × Int32)
  | put location word => some (location, word)
  | _ => none

/-- The words that steps put in the image, in order. -/
def puts (steps : List Step) : List (Int32 × Int32) := steps.filterMap put?

theorem puts_append (steps steps' : List Step) :
    puts (steps ++ steps') = puts steps ++ puts steps' :=
  List.filterMap_append

@[simp] theorem puts_report (diagnostics : List Diagnostic) (reported : Nat) :
    puts (report diagnostics reported) = [] := by
  apply List.filterMap_eq_nil_iff.mpr
  intro step member
  obtain ⟨d, -, rfl⟩ := List.mem_map.mp member
  rfl

theorem isSome_put? (step : Step) : step.put?.isSome = step.isPut := by
  cases step <;> rfl

theorem length_puts (steps : List Step) : (puts steps).length = steps.countP isPut := by
  simp only [puts, List.length_filterMap_eq_countP, isSome_put?]

end Step

namespace LineView

@[simp] theorem puts_note (v : LineView) (diagnostics : List Diagnostic) :
    Step.puts (v.note diagnostics) = [] := by
  simp only [note]
  split <;> rfl

@[simp] theorem puts_source (v : LineView) (listed : Bool) : Step.puts (v.source listed) = [] := by
  cases listed <;> rfl

@[simp] theorem puts_word (v : LineView) (listed : Bool) (location value : Int32) :
    Step.puts (v.word listed location value) = [(location, value)] := rfl

end LineView

namespace Assembly

/-- The word that a cell holds. An expression that cannot be evaluated gives zero, and a pool cell
holds no word. -/
def word? (a : Assembly) : Cell.Content → Option Int32
  | .word value => some value
  | .expr id =>
    match (a.exprs.evaluate a.symbols id).value with
    | .ok value => some value
    | .error _ => some 0
  | .pool _ _ => none

/-- The word of a cell with the location that the cell was given. -/
def placement? (a : Assembly) (cell : Cell) : Option (Int32 × Int32) :=
  (a.word? cell.content).map fun word => (cell.location, word)

/-- The code list as words at locations, without the pool cells. -/
def words (a : Assembly) : List (Int32 × Int32) := a.code.toList.filterMap a.placement?

theorem word?_expr (a : Assembly) (id : ExprId) : a.word? (.expr id) = some (a.cellValue id).1 := by
  simp only [word?, cellValue]
  cases (a.exprs.evaluate a.symbols id).value with
  | ok value => rfl
  | error e => rfl

theorem isSome_placement? (a : Assembly) (cell : Cell) :
    (a.placement? cell).isSome = !cell.isPool := by
  obtain ⟨line, location, content⟩ := cell
  cases content with
  | word value => rfl
  | expr id => simp [placement?, word?_expr, Cell.isPool]
  | pool first count => rfl

theorem length_words (a : Assembly) : a.words.length = a.wordCount := by
  simp only [words, wordCount, List.length_filterMap_eq_countP, isSome_placement?]
  exact Array.countP_toList

section Plan

variable {σ : Type} (a : Assembly) (view : LineView) (pool : Nat → Nat → σ → List Step × σ)

/-- The plan for cells puts what each of them holds, provided the plan for a pool does. `Kept` is
what planning a pool needs of the pool lines and leaves true. -/
theorem puts_planCells (held : Cell → List (Int32 × Int32)) (Kept : σ → Prop) (cells : List Cell)
    (plain : ∀ cell, cell.isPool = false → held cell = (a.placement? cell).toList)
    (pools : ∀ cell first count, cell.content = .pool first count → ∀ s, Kept s →
      Step.puts (pool first count s).1 = held cell ∧ Kept (pool first count s).2)
    (listed : Bool) (reported : Nat) (ds : List Diagnostic) (s : σ) (kept : Kept s) :
    Step.puts (a.planCells view pool cells listed reported ds s).1 = cells.flatMap held ∧
      Kept (a.planCells view pool cells listed reported ds s).2.2 := by
  induction cells generalizing listed reported ds s with
  | nil =>
    refine ⟨?_, kept⟩
    simp [planCells, Step.puts_append]
  | cons cell rest ih =>
    obtain ⟨line, location, content⟩ := cell
    cases content with
    | word value =>
      obtain ⟨steps, kept⟩ := ih true reported ds s kept
      refine ⟨?_, kept⟩
      have own := plain ⟨line, location, .word value⟩ rfl
      simp [planCells, Step.puts_append, steps, own, placement?, word?]
    | expr id =>
      obtain ⟨steps, kept⟩ := ih true reported (ds ++ (a.cellValue id).2) s kept
      refine ⟨?_, kept⟩
      have own := plain ⟨line, location, .expr id⟩ rfl
      simp [planCells, Step.puts_append, steps, own, placement?, word?_expr]
    | pool first count =>
      obtain ⟨inner, kept⟩ := pools ⟨line, location, .pool first count⟩ first count rfl s kept
      obtain ⟨steps, kept⟩ := ih true ds.length ds _ kept
      refine ⟨?_, kept⟩
      simp only [planCells, Step.puts_append, LineView.puts_source, Step.puts_report, inner, steps]
      simp

end Plan

section Lines

variable {a : Assembly}

theorem code_planPoolLine (a : Assembly) (line : Line) : (a.planPoolLine line).2.code = line.code :=
  rfl

/-- A pool cell of a pool line would put nothing. -/
theorem puts_planPoolLine (a : Assembly) (line : Line) :
    Step.puts (a.planPoolLine line).1 = (a.cells line).filterMap a.placement? := by
  have empty : ∀ cell first count, cell.content = .pool first count → ∀ u : Unit, True →
      Step.puts [] = (a.placement? cell).toList ∧ True := by
    intro cell first count content _ _
    simp [placement?, content, word?, Step.puts]
  rw [List.filterMap_eq_flatMap_toList]
  exact (a.puts_planCells ⟨line.text, none⟩ (fun _ _ u => ([], u))
    (fun cell => (a.placement? cell).toList) (fun _ => True) (a.cells line) (fun _ _ => rfl) empty
    false 0 line.diagnostics () trivial).1

/-- Planning fills in the diagnostics of pool lines and leaves their cells alone. -/
def SameCode (a : Assembly) (lines : Array Line) : Prop :=
  lines.map Line.code = a.poolLines.map Line.code

theorem SameCode.getElem? {lines : Array Line} (same : a.SameCode lines) (i : Nat) :
    lines[i]?.map Line.code = a.poolLines[i]?.map Line.code := by
  rw [← Array.getElem?_map, same, Array.getElem?_map]

/-- What an updated line has in common with the old one, the whole array keeps. -/
theorem map_setIfInBounds_of_eq {α : Type} {f : Line → α} {lines : Array Line} {i : Nat}
    {line line' : Line} (found : lines[i]? = some line) (same : f line' = f line) :
    (lines.setIfInBounds i line').map f = lines.map f := by
  have own : (lines.map f)[i]? = some (f line') := by simp [found, same]
  rw [Array.map_setIfInBounds]
  apply Array.ext_getElem?
  intro j
  by_cases hj : i = j
  · subst hj
    rw [own, Array.getElem?_setIfInBounds_self_of_lt (Array.getElem?_eq_some_iff.mp own).1]
  · rw [Array.getElem?_setIfInBounds_ne hj]

theorem SameCode.set {lines : Array Line} (same : a.SameCode lines) {i : Nat} {line line' : Line}
    (found : lines[i]? = some line) (code : line'.code = line.code) :
    a.SameCode (lines.setIfInBounds i line') :=
  (map_setIfInBounds_of_eq found code).trans same

/-- The plan for a stretch of pool lines puts the words of their cells. -/
theorem SameCode.puts_planPool (i count : Nat) {lines : Array Line}
    (same : a.SameCode lines) :
    Step.puts (a.planPool i count lines).1 =
        (((a.poolLines.toList.drop i).take count).flatMap a.cells).filterMap a.placement? ∧
      a.SameCode (a.planPool i count lines).2 := by
  induction count generalizing i lines with
  | zero => exact ⟨by simp [planPool, Step.puts], same⟩
  | succ count ih =>
    have codes := same.getElem? i
    cases found : lines[i]? with
    | none =>
      have beyond : a.poolLines.size ≤ i := by
        simpa [found] using codes
      have done : a.poolLines.toList.drop i = [] := List.drop_eq_nil_of_le (by simpa using beyond)
      simp only [planPool, found]
      exact ⟨by simp [done, Step.puts], same⟩
    | some line =>
      obtain ⟨own, at_i, code⟩ : ∃ own, a.poolLines[i]? = some own ∧ own.code = line.code := by
        simpa [found, eq_comm] using codes
      obtain ⟨below, entry⟩ := Array.getElem?_eq_some_iff.mp at_i
      have cells : a.cells line = a.cells own := by simp only [Assembly.cells, code]
      have next : a.poolLines.toList.drop i = own :: a.poolLines.toList.drop (i + 1) := by
        rw [List.drop_eq_getElem_cons (by simpa using below)]
        simp [entry]
      have first : Step.puts (a.planPoolLine line).1 = (a.cells own).filterMap a.placement? := by
        rw [puts_planPoolLine, cells]
      obtain ⟨later, same⟩ := ih (i + 1) (same.set found (code_planPoolLine a line))
      simp only [planPool, found]
      refine ⟨?_, same⟩
      simp [Step.puts_append, first, later, next]

/-- The plan for a source line puts what its cells stand for. -/
theorem SameCode.puts_planLine (line : Line) {lines : Array Line} (same : a.SameCode lines) :
    Step.puts (a.planLine line lines).1 =
        ((a.cells line).flatMap a.expand).filterMap a.placement? ∧
      a.SameCode (a.planLine line lines).2 := by
  rw [List.filterMap_flatMap]
  refine a.puts_planCells ⟨line.text, some line.number⟩
    (fun first count lines => a.planPool (first - 1) count lines)
    (fun cell => (a.expand cell).filterMap a.placement?) a.SameCode (a.cells line) ?_ ?_
    false 0 line.diagnostics lines same
  · intro cell plain
    rw [a.expand_plain plain, List.filterMap_eq_flatMap_toList, List.flatMap_singleton]
  · intro cell first count content lines same
    rw [expand, content]
    exact same.puts_planPool (first - 1) count

theorem SameCode.puts_planLines (source : List Line) {lines : Array Line}
    (same : a.SameCode lines) :
    Step.puts ((a.planLines source lines).1.flatMap Prod.snd) =
      ((source.flatMap a.cells).flatMap a.expand).filterMap a.placement? := by
  induction source generalizing lines with
  | nil => rfl
  | cons line rest ih =>
    obtain ⟨first, same⟩ := same.puts_planLine line
    simp only [planLines, List.flatMap_cons, Step.puts_append, first, ih same,
      List.flatMap_append, List.filterMap_append]

theorem puts_startSteps (a : Assembly) : Step.puts a.startSteps = [] := by
  simp only [startSteps]
  split
  · exact Step.puts_report _ _
  · rfl

theorem words_eq_filter (a : Assembly) :
    (a.code.toList.filter fun cell => !cell.isPool).filterMap a.placement? = a.words := by
  rw [List.filterMap_filter]
  apply List.filterMap_congr
  intro cell _
  have held := a.isSome_placement? cell
  by_cases plain : cell.isPool
  · simp_all
  · simp [plain]

/-- The whole plan puts what the cells of the source lines stand for. -/
theorem puts_plan_eq (a : Assembly) (source : Source) : Step.puts (a.plan source) =
    ((source.lines.flatMap a.cells).flatMap a.expand).filterMap a.placement? := by
  rw [plan, Step.puts_append, puts_startSteps, List.append_nil,
    SameCode.puts_planLines source.lines rfl]

/-- After a first pass these are the words of the code list. -/
theorem Accounted.puts_plan {source : Source} (h : Accounted (source.lines.flatMap Line.code) a)
    (idle : a.lineCode = []) : Step.puts (a.plan source) = a.words := by
  have inOrder := h.inOrder
  rw [idle, List.append_nil] at inOrder
  rw [puts_plan_eq, flatMap_cells, inOrder, words_eq_filter]

end Lines

end Assembly

namespace Image.Writer

theorem flush_of_unlimited {w : Writer} (h : w.sink.limit = none) :
    ∃ w', w.flush = (.ok (), w') ∧ w'.sink.limit = none := by
  cases block : w.block with
  | none =>
    simp only [flush, block]
    exact ⟨w, rfl, h⟩
  | some b =>
    simp only [flush, block, write_of_unlimited h]
    exact ⟨_, rfl, h⟩

theorem flushIf_of_unlimited {w : Writer} (h : w.sink.limit = none) (condition : Bool) :
    ∃ w', (if condition then w.flush else (.ok (), w)) = (.ok (), w') ∧
      w'.sink.limit = none := by
  cases condition with
  | false => exact ⟨w, rfl, h⟩
  | true => exact flush_of_unlimited h

theorem put_of_unlimited {w : Writer} (h : w.sink.limit = none) (location word : Int32) :
    ∃ next w', w.put location word = (.ok next, w') ∧ w'.sink.limit = none := by
  let place := location.toUInt32.toNat % 0o100000
  obtain ⟨v, flushed, hv⟩ := flushIf_of_unlimited h (w.breaksAt place)
  let added := (v.checkPlace place).append place word
  have hadded : added.sink.limit = none := by
    simp only [added, append, checkPlace]
    split
    · exact hv
    · exact hv
  obtain ⟨w', full, hw'⟩ := flushIf_of_unlimited hadded added.isFull
  refine ⟨place + 1, w', ?_, hw'⟩
  simp only [put, place, added] at flushed full ⊢
  rw [flushed]
  simp only
  rw [full]

theorem perform_append {calls calls' : List Call} {w w' : Writer}
    (first : w.perform calls = (.ok (), w')) :
    w.perform (calls ++ calls') = w'.perform calls' := by
  induction calls generalizing w with
  | nil =>
    cases first
    rfl
  | cons call rest ih =>
    cases call with
    | start address => exact ih first
    | put location word =>
      simp only [perform, List.cons_append] at first ⊢
      generalize w.put location word = r at first ⊢
      obtain ⟨result, v⟩ := r
      cases result with
      | error e => cases first
      | ok next => exact ih first

end Image.Writer

namespace Outputs

/-- Neither output has a limit. -/
structure Unlimited (o : Outputs) : Prop where
  listing : o.listing.limit = none
  object : o.object.sink.limit = none

variable {o : Outputs}

theorem list_of_unlimited (h : o.Unlimited) (entry : Listing.Entry) :
    ∃ o', o.list entry = (.ok (), o') ∧ o'.Unlimited ∧ o'.object = o.object := by
  obtain ⟨listing, object⟩ := o
  simp only [list, Sink.writeText, Image.Writer.write_of_unlimited h.listing]
  exact ⟨_, rfl, ⟨h.listing, h.object⟩, rfl⟩

/-- The calls that put words in an image. -/
def putCalls (words : List (Int32 × Int32)) : List Image.Writer.Call :=
  words.map fun p => .put p.1 p.2

theorem putCalls_append (words words' : List (Int32 × Int32)) :
    putCalls (words ++ words') = putCalls words ++ putCalls words' :=
  List.map_append

theorem put_of_unlimited (h : o.Unlimited) (location word : Int32) :
    ∃ o', o.put location word = (.ok (), o') ∧ o'.Unlimited ∧
      o.object.perform [.put location word] = (.ok (), o'.object) := by
  obtain ⟨listing, object⟩ := o
  obtain ⟨next, object', written, unlimited⟩ :=
    Image.Writer.put_of_unlimited h.object location word
  simp only at written
  simp only [put, written, Image.Writer.perform]
  exact ⟨_, rfl, ⟨h.listing, unlimited⟩, rfl⟩

/-- Without limits every step of a plan is carried out. -/
theorem runSteps_of_unlimited (h : o.Unlimited) (steps : List Step) (line : Line) :
    ∃ line' o', o.runSteps steps line = (.ok (), line', o') ∧ o'.Unlimited ∧
      o.object.perform (putCalls (Step.puts steps)) = (.ok (), o'.object) := by
  induction steps generalizing o line with
  | nil => exact ⟨line, o, rfl, h, rfl⟩
  | cons step rest ih =>
    cases step with
    | note ds => exact ih h _
    | list entry =>
      obtain ⟨v, listed, hv, same⟩ := list_of_unlimited h entry
      obtain ⟨line', o', ran, ho', put⟩ := ih hv line
      refine ⟨line', o', ?_, ho', ?_⟩
      · rw [runSteps, listed]
        exact ran
      · rw [← same]
        exact put
    | put location word =>
      obtain ⟨v, written, hv, call⟩ := put_of_unlimited h location word
      obtain ⟨line', o', ran, ho', put⟩ := ih hv line
      refine ⟨line', o', ?_, ho', ?_⟩
      · rw [runSteps, written]
        exact ran
      · exact (Image.Writer.perform_append call).trans put

theorem runLines_of_unlimited (h : o.Unlimited) (plans : List (Line × List Step)) :
    ∃ lines o', o.runLines plans = (.ok (), lines, o') ∧ o'.Unlimited ∧
      o.object.perform (putCalls (Step.puts (plans.flatMap Prod.snd))) = (.ok (), o'.object) := by
  induction plans generalizing o with
  | nil => exact ⟨[], o, rfl, h, rfl⟩
  | cons entry rest ih =>
    obtain ⟨line, steps⟩ := entry
    obtain ⟨line', v, ran, hv, put⟩ := runSteps_of_unlimited h steps line
    obtain ⟨lines, o', later, ho', put'⟩ := ih hv
    refine ⟨line' :: lines, o', ?_, ho', ?_⟩
    · simp only [runLines, ran, later]
    · rw [List.flatMap_cons, Step.puts_append, putCalls_append, Image.Writer.perform_append put]
      exact put'

theorem listBoth_of_unlimited (h : o.Unlimited) (first second : Diagnostic) :
    ∃ o', o.listBoth first second = (.ok (), o') ∧ o'.Unlimited ∧ o'.object = o.object := by
  obtain ⟨v, listed, hv, same⟩ := list_of_unlimited h (.diagnostic first.message)
  obtain ⟨o', listed', ho', same'⟩ := list_of_unlimited hv (.diagnostic second.message)
  refine ⟨o', ?_, ho', same'.trans same⟩
  simp only [listBoth, listed, listed']

end Outputs

namespace Assembly

/-- The call that records the starting address, if it has a value. -/
def startCall (a : Assembly) : List Image.Writer.Call :=
  match a.startValue? with
  | some (.ok address) => [.start address]
  | _ => []

theorem finish_of_unlimited {o : Outputs} (h : o.Unlimited) (a : Assembly) (report : Report) :
    ∃ report' o', a.finish report o = (.ok report', o') ∧ report'.words = report.words ∧
      o.object.perform a.startCall = (.ok (), o'.object) := by
  simp only [finish, startCall]
  cases a.startValue? with
  | none => exact ⟨report, o, rfl, rfl, rfl⟩
  | some value =>
    cases value with
    | ok address => exact ⟨_, _, rfl, rfl, rfl⟩
    | error e =>
      obtain ⟨o', listed, ho', same⟩ := Outputs.listBoth_of_unlimited h (.evaluation e)
        .startNotEvaluated
      simp only [listed, ← same]
      exact ⟨_, _, rfl, rfl, rfl⟩

/-- A second pass on outputs without a limit runs to its end and puts what it planned. -/
theorem passTwo_of_unlimited {o : Outputs} (h : o.Unlimited) (source : Source) (a : Assembly) :
    ∃ report source' a' o', a.passTwo source o = (.ok report, source', a', o') ∧
      o.object.perform (Outputs.putCalls (Step.puts (a.plan source)) ++ a.startCall) =
        (.ok (), o'.object) ∧
      report.words = (Step.puts (a.plan source)).length := by
  obtain ⟨lines, v, ran, hv, put⟩ :=
    Outputs.runLines_of_unlimited h (a.planLines source.lines a.poolLines).1
  obtain ⟨report, o', finished, counted, start⟩ :=
    finish_of_unlimited hv a (a.report (a.planLines source.lines a.poolLines).1)
  have planned : Step.puts (a.plan source) =
      Step.puts ((a.planLines source.lines a.poolLines).1.flatMap Prod.snd) := by
    rw [plan, Step.puts_append, puts_startSteps, List.append_nil]
  refine ⟨report, { source with lines := lines },
    { a with poolLines := (a.planLines source.lines a.poolLines).2 }, o', ?_, ?_, ?_⟩
  · simp only [passTwo, ran, finished]
  · rw [planned, Image.Writer.perform_append put, start]
  · rw [planned, counted, Step.length_puts]
    rfl

/-- Assembling any text with a fresh state and outputs without a limit, the second pass puts the
words of the code list, each once, in order and at its location, and reports how many there are. -/
theorem second_pass_puts_code (dialect : Dialect) (name text : String) {o : Outputs}
    (unlimited : o.Unlimited) :
    let source := ((init dialect).passOne (.ofText name text)).1
    let a := ((init dialect).passOne (.ofText name text)).2
    Step.puts (a.plan source) = a.words ∧
      ∃ report source' a' o', a.passTwo source o = (.ok report, source', a', o') ∧
        o.object.perform (Outputs.putCalls a.words ++ a.startCall) = (.ok (), o'.object) ∧
        report.words = a.words.length ∧ report.words = a.wordCount := by
  intro source a
  have idle : a.lineCode = [] := lineCode_passOne _ rfl
  have puts : Step.puts (a.plan source) = a.words :=
    (accounted_ofText dialect name text).puts_plan idle
  obtain ⟨report, source', a', o', ran, object, counted⟩ := passTwo_of_unlimited unlimited source a
  rw [puts] at object counted
  exact ⟨puts, report, source', a', o', ran, object, counted, counted.trans a.length_words⟩

theorem words_nested_literals :
    ((init .midas).passOne (.ofText "nested" "\tLAC [LAC [5]]")).2.words =
      [(0, 0o60001), (1, 0o60002), (2, 5)] := by
  decide +kernel

/-- A literal inside a literal: the pool holds both, the outer one first. -/
theorem second_pass_puts_nested_literals :
    let source := ((init .midas).passOne (.ofText "nested" "\tLAC [LAC [5]]")).1
    let a := ((init .midas).passOne (.ofText "nested" "\tLAC [LAC [5]]")).2
    (Outputs.mk {} (.init {} .block)).Unlimited ∧
      Step.puts (a.plan source) = [(0, 0o60001), (1, 0o60002), (2, 5)] ∧
      ∃ report source' a' o',
        a.passTwo source ⟨{}, .init {} .block⟩ = (.ok report, source', a', o') ∧
          report.words = 3 := by
  have unlimited : (Outputs.mk {} (.init {} .block)).Unlimited := ⟨rfl, rfl⟩
  obtain ⟨puts, report, source', a', o', ran, -, counted, -⟩ :=
    second_pass_puts_code .midas "nested" "\tLAC [LAC [5]]" unlimited
  exact ⟨unlimited, puts.trans words_nested_literals, report, source', a', o', ran,
    counted.trans (congrArg List.length words_nested_literals)⟩

end Assembly

end Pds1
