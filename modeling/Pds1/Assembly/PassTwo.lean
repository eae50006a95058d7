import Pds1.Assembly.PassOne
import Pds1.Image.Writer
import Pds1.Listing

/-!
# Second pass

What the second pass does to the outputs is planned first, as a list of steps that depends on the
first pass alone. The plan is then carried out until an output is full. If that happens while lines
are being listed, the lines of the literal pools are lost.
-/

namespace Pds1

/-- One thing that the second pass does for a line. -/
inductive Step where
  /-- Queues diagnostics on the source line. -/
  | note (diagnostics : List Diagnostic)
  | list (entry : Listing.Entry)
  | put (location word : Int32)
  deriving DecidableEq

namespace Step

def isPut : Step → Bool
  | put _ _ => true
  | _ => false

def isDiagnostic : Step → Bool
  | list entry => entry.isDiagnostic
  | _ => false

/-- The diagnostics from position `reported` on. -/
def report (diagnostics : List Diagnostic) (reported : Nat) : List Step :=
  (diagnostics.drop reported).map fun d => .list (.diagnostic d.message)

end Step

/-- A source or pool line as the second pass sees it. -/
structure LineView where
  text : String
  /-- Pool lines are listed without a number. -/
  number : Option Nat
  deriving DecidableEq

namespace LineView

/-- Queues diagnostics on a source line; those of a pool line go with the pool. -/
def note (v : LineView) (diagnostics : List Diagnostic) : List Step :=
  if v.number.isSome then [.note diagnostics] else []

/-- Lists the line itself, unless that has been done. -/
def source (v : LineView) (listed : Bool) : List Step :=
  if listed then [] else [.list (.source v.number v.text)]

/-- Lists a word, with the text of the line if it is the first one, and puts it in the image. -/
def word (v : LineView) (listed : Bool) (location value : Int32) : List Step :=
  [.list (if listed then .word location value else .code location value v.number v.text),
    .put location value]

end LineView

namespace Assembly

/-- The value that a cell puts in the image and the diagnostics its evaluation leaves. -/
def cellValue (a : Assembly) (id : ExprId) : Int32 × List Diagnostic :=
  let e := a.exprs.evaluate a.symbols id
  match e.value with
  | .ok value => (value, e.warningDiagnostics)
  | .error error => (0, e.warningDiagnostics ++ [.evaluation error, .operandNotEvaluated])

/-- The cells that a line refers to. -/
def cells (a : Assembly) (line : Line) : List Cell := line.code.filterMap fun i => a.code[i]?

/-- The plan for a line and the diagnostics it has in the end. What a pool cell adds is left to
`pool`, which may also change the pool lines. -/
def planCells {σ : Type} (a : Assembly) (view : LineView) (pool : Nat → Nat → σ → List Step × σ) :
    List Cell → Bool → Nat → List Diagnostic → σ → List Step × List Diagnostic × σ
  | [], listed, reported, ds, s => (view.source listed ++ Step.report ds reported, ds, s)
  | cell :: cells, listed, reported, ds, s =>
    match cell.content with
    | .word value =>
      let (steps, r) := planCells a view pool cells true reported ds s
      (view.word listed cell.location value ++ steps, r)
    | .expr id =>
      let (value, new) := a.cellValue id
      let (steps, r) := planCells a view pool cells true reported (ds ++ new) s
      (view.note new ++ view.word listed cell.location value ++ steps, r)
    | .pool first count =>
      let (inner, s) := pool first count s
      let (steps, r) := planCells a view pool cells true ds.length ds s
      (view.source listed ++ Step.report ds reported ++ inner ++ steps, r)

/-- The plan for a pool line. Its own cells never hold a pool. -/
def planPoolLine (a : Assembly) (line : Line) : List Step × Line :=
  let (steps, ds, _) := a.planCells ⟨line.text, none⟩ (fun _ _ u => ([], u)) (a.cells line) false 0
    line.diagnostics ()
  (steps, { line with diagnostics := ds })

/-- The plan for `count` pool lines from position `i` on, as far as there are any. -/
def planPool (a : Assembly) (i : Nat) : Nat → Array Line → List Step × Array Line
  | 0, lines => ([], lines)
  | count + 1, lines =>
    match lines[i]? with
    | none => ([], lines)
    | some line =>
      let (steps, line) := a.planPoolLine line
      let (rest, lines) := a.planPool (i + 1) count (lines.setIfInBounds i line)
      (steps ++ rest, lines)

/-- The plan for a source line. -/
def planLine (a : Assembly) (line : Line) (poolLines : Array Line) : List Step × Array Line :=
  let (steps, _, poolLines) := a.planCells ⟨line.text, some line.number⟩
    (fun first count lines => a.planPool (first - 1) count lines)
    (a.cells line) false 0 line.diagnostics poolLines
  (steps, poolLines)

/-- The plans for the lines of a source, each beside its line, and the pool lines in the end. -/
def planLines (a : Assembly) : List Line → Array Line → List (Line × List Step) × Array Line
  | [], poolLines => ([], poolLines)
  | line :: rest, poolLines =>
    let (steps, poolLines) := a.planLine line poolLines
    let (plans, poolLines) := a.planLines rest poolLines
    ((line, steps) :: plans, poolLines)

end Assembly

/-- Where the second pass writes to. -/
structure Outputs where
  listing : Sink
  object : Image.Writer
  deriving DecidableEq

namespace Outputs

def list : Outputs → Listing.Entry → Except WriteError Unit × Outputs
  | ⟨listing, object⟩, entry =>
    let (result, listing) := listing.writeText entry.render
    (result, ⟨listing, object⟩)

def put : Outputs → Int32 → Int32 → Except WriteError Unit × Outputs
  | ⟨listing, object⟩, location, word =>
    let (result, object) := object.put location word
    (result.map fun _ => (), ⟨listing, object⟩)

/-- Carries out the plan of a line until an output is full. -/
def runSteps : List Step → Line → Outputs → Except WriteError Unit × Line × Outputs
  | [], line, o => (.ok (), line, o)
  | .note ds :: steps, line, o =>
    runSteps steps { line with diagnostics := line.diagnostics ++ ds } o
  | .list entry :: steps, line, o =>
    match o.list entry with
    | (.ok _, o) => runSteps steps line o
    | (.error e, o) => (.error e, line, o)
  | .put location word :: steps, line, o =>
    match o.put location word with
    | (.ok _, o) => runSteps steps line o
    | (.error e, o) => (.error e, line, o)

/-- Carries out the plans of lines; lines that are not reached stay as they are. -/
def runLines : List (Line × List Step) → Outputs → Except WriteError Unit × List Line × Outputs
  | [], o => (.ok (), [], o)
  | (line, steps) :: plans, o =>
    match runSteps steps line o with
    | (.error e, line, o) => (.error e, line :: plans.map Prod.fst, o)
    | (.ok _, line, o) =>
      let (result, lines, o) := runLines plans o
      (result, line :: lines, o)

/-- Lists two diagnostics. -/
def listBoth (o : Outputs) (first second : Diagnostic) : Except WriteError Unit × Outputs :=
  match o.list (.diagnostic first.message) with
  | (.error e, o) => (.error e, o)
  | (.ok _, o) => o.list (.diagnostic second.message)

end Outputs

/-- Totals of an assembly run. -/
structure Report where
  lines : Nat
  words : Nat
  diagnostics : Nat
  comments : Nat
  start : Option Int32
  deriving DecidableEq

namespace Assembly

/-- The report for a plan that was carried out in full. -/
def report (a : Assembly) (plans : List (Line × List Step)) : Report :=
  let steps := plans.flatMap Prod.snd
  ⟨plans.length, steps.countP Step.isPut, steps.countP Step.isDiagnostic, a.comments, none⟩

/-- The value of the starting address, if one was given. -/
def startValue? (a : Assembly) : Option (Except EvalError Int32) :=
  a.start.map fun id => (a.exprs.evaluate a.symbols id).value

/-- Evaluates the starting address, if one was given, and records it in the image. -/
def finish (a : Assembly) (report : Report) (o : Outputs) : Except WriteError Report × Outputs :=
  match a.startValue? with
  | none => (.ok report, o)
  | some (.ok address) =>
    (.ok { report with start := some address }, { o with object := o.object.setStart address })
  | some (.error e) =>
    let (result, o) := o.listBoth (.evaluation e) .startNotEvaluated
    (result.map fun _ => { report with diagnostics := report.diagnostics + 2 }, o)

/-- The steps after the last line: a starting address without a value is reported. -/
def startSteps (a : Assembly) : List Step :=
  match a.startValue? with
  | some (.error e) => Step.report [.evaluation e, .startNotEvaluated] 0
  | _ => []

/-- All steps of the second pass over a source. -/
def plan (source : Source) (a : Assembly) : List Step :=
  (a.planLines source.lines a.poolLines).1.flatMap Prod.snd ++ a.startSteps

/-- The second pass over a source. -/
def passTwo (source : Source) (a : Assembly) (o : Outputs) :
    Except WriteError Report × Source × Assembly × Outputs :=
  let (plans, poolLines) := a.planLines source.lines a.poolLines
  match o.runLines plans with
  | (.error e, lines, o) =>
    (.error e, { source with lines := lines }, { a with poolLines := #[] }, o)
  | (.ok _, lines, o) =>
    let (result, o) := a.finish (a.report plans) o
    (result, { source with lines := lines }, { a with poolLines := poolLines }, o)

/-- Both passes, and then the end of the image. -/
def run (source : Source) (a : Assembly) (o : Outputs) :
    Except WriteError Report × Source × Assembly × Outputs :=
  let (source, a) := a.passOne source
  match a.passTwo source o with
  | (.error e, source, a, o) => (.error e, source, a, o)
  | (.ok report, source, a, o) =>
    let (result, object) := o.object.close
    (result.map fun _ => report, source, a, { o with object := object })

end Assembly

/-- Assembles a source with a fresh state. -/
def assemble (dialect : Dialect) (source : Source) (o : Outputs) :
    Except WriteError Report × Source × Assembly × Outputs :=
  (Assembly.init dialect).run source o

end Pds1
