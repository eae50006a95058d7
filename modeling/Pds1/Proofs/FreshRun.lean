import Pds1.Proofs.ImageRoundTrip
import Pds1.Proofs.LineDiagnostics
import Pds1.Proofs.ListingRows

/-!
# A run from a fresh state

Assembling a text with a fresh state and outputs without a limit succeeds. What is then added to the
listing, what is asked of the image and what the report says is told by the plan of the second pass
alone: the listing is the text of the planned entries, the image holds the words of the code list.
If the outputs were empty, the image can be decoded again.
-/

namespace Pds1

namespace Step

def entry? : Step → Option Listing.Entry
  | list entry => some entry
  | _ => none

/-- The entries that steps list, in order. -/
def entries (steps : List Step) : List Listing.Entry := steps.filterMap entry?

theorem entries_append (steps steps' : List Step) :
    entries (steps ++ steps') = entries steps ++ entries steps' :=
  List.filterMap_append

theorem countP_isDiagnostic (steps : List Step) :
    steps.countP isDiagnostic = (entries steps).countP Listing.Entry.isDiagnostic := by
  induction steps with
  | nil => rfl
  | cons step rest ih =>
    cases step with
    | note ds => exact ih
    | put location word => exact ih
    | list entry =>
      have here : (list entry).isDiagnostic = entry.isDiagnostic := rfl
      rw [List.countP_cons, ih, here]
      exact (List.countP_cons ..).symm

end Step

namespace Outputs

/-- From `o` to `o'` the entries are added to the listing. -/
def Lists (o : Outputs) (entries : List Listing.Entry) (o' : Outputs) : Prop :=
  o'.listing.bytes = o.listing.bytes ++ (Listing.textOf entries).toUTF8.data

variable {o o' o'' : Outputs}

theorem lists_nil (same : o'.listing = o.listing) : o.Lists [] o' := by
  rw [Lists, same]
  exact (Array.append_empty).symm

theorem Lists.trans {entries entries' : List Listing.Entry} (h : o.Lists entries o')
    (h' : o'.Lists entries' o'') : o.Lists (entries ++ entries') o'' := by
  have bytes : (Listing.textOf (entries ++ entries')).toUTF8.data =
      (Listing.textOf entries).toUTF8.data ++ (Listing.textOf entries').toUTF8.data := by
    rw [Listing.textOf, List.map_append, String.join_append]
    exact (congrArg ByteArray.data String.toByteArray_append).trans ByteArray.data_append
  rw [Lists, bytes, h', h, Array.append_assoc]

theorem lists_of_list {entry : Listing.Entry} (done : o.list entry = (.ok (), o')) :
    o.Lists [entry] o' := by
  obtain ⟨listing, object⟩ := o
  simp only [list, Sink.writeText, Sink.write] at done
  split at done
  · cases done
    simp [Lists, Listing.textOf]
  · cases done

theorem lists_of_put {location word : Int32} (done : o.put location word = (.ok (), o')) :
    o.Lists [] o' := by
  obtain ⟨listing, object⟩ := o
  obtain rfl : (put ⟨listing, object⟩ location word).2 = o' := congrArg Prod.snd done
  exact lists_nil rfl

/-- A plan that is carried out in full lists its entries. -/
theorem lists_of_runSteps {steps : List Step} {line line' : Line}
    (ran : o.runSteps steps line = (.ok (), line', o')) : o.Lists (Step.entries steps) o' := by
  induction steps generalizing line o with
  | nil =>
    cases ran
    exact lists_nil rfl
  | cons step rest ih =>
    cases step with
    | note ds => exact ih ran
    | list entry =>
      rw [runSteps] at ran
      split at ran
      · next listed => exact (lists_of_list listed).trans (ih ran)
      · cases ran
    | put location word =>
      rw [runSteps] at ran
      split at ran
      · next written => exact (lists_of_put written).trans (ih ran)
      · cases ran

theorem lists_of_runLines {plans : List (Line × List Step)} {lines : List Line}
    (ran : o.runLines plans = (.ok (), lines, o')) :
    o.Lists (Step.entries (plans.flatMap Prod.snd)) o' := by
  induction plans generalizing lines o with
  | nil =>
    cases ran
    exact lists_nil rfl
  | cons plan rest ih =>
    rw [runLines] at ran
    split at ran
    · cases ran
    · next line v first =>
      generalize later : v.runLines rest = r at ran
      obtain ⟨result, lines', w⟩ := r
      cases ran
      rw [List.flatMap_cons, Step.entries_append]
      exact (lists_of_runSteps first).trans (ih later)

theorem lists_of_listBoth {first second : Diagnostic}
    (done : o.listBoth first second = (.ok (), o')) :
    o.Lists (Step.entries (Step.report [first, second] 0)) o' := by
  rw [listBoth] at done
  split at done
  · cases done
  · next listed => exact (lists_of_list listed).trans (lists_of_list done)

end Outputs

namespace Image.Writer

variable {w w' : Writer}

theorem close_of_unlimited (h : w.sink.limit = none) : ∃ w', w.close = (.ok (), w') := by
  obtain ⟨v, flushed, unlimited⟩ := flush_of_unlimited h
  simp only [close, flushed, write_of_unlimited unlimited]
  exact ⟨_, rfl⟩

theorem limit_perform {calls : List Call} (h : w.sink.limit = none)
    (performed : w.perform calls = (.ok (), w')) : w'.sink.limit = none := by
  induction calls generalizing w with
  | nil =>
    cases performed
    exact h
  | cons call rest ih =>
    cases call with
    | start address =>
      have kept : (w.setStart address).sink.limit = none := h
      exact ih kept performed
    | put location word =>
      obtain ⟨next, v, put, unlimited⟩ := put_of_unlimited h location word
      rw [perform, put] at performed
      exact ih unlimited performed

end Image.Writer

namespace Assembly

/-- The address in the report: the value of the starting address, if it has one. -/
def reportedStart (a : Assembly) : Option Int32 :=
  match a.startValue? with
  | some (.ok address) => some address
  | _ => none

theorem finish_lists {a : Assembly} {report report' : Report} {o o' : Outputs}
    (unstarted : report.start = none) (done : a.finish report o = (.ok report', o')) :
    o.Lists (Step.entries a.startSteps) o' ∧
      report' = { report with
        diagnostics := report.diagnostics + a.startSteps.countP Step.isDiagnostic
        start := a.reportedStart } := by
  simp only [finish, startSteps, reportedStart] at done ⊢
  generalize a.startValue? = value at done ⊢
  cases value with
  | none =>
    cases done
    exact ⟨Outputs.lists_nil rfl, by rw [← unstarted]; rfl⟩
  | some value =>
    cases value with
    | ok address =>
      cases done
      exact ⟨Outputs.lists_nil rfl, rfl⟩
    | error e =>
      simp only at done
      generalize listed : o.listBoth (.evaluation e) .startNotEvaluated = r at done
      obtain ⟨result, v⟩ := r
      cases result with
      | error => cases done
      | ok =>
        cases done
        exact ⟨Outputs.lists_of_listBoth listed, by rw [← unstarted]; rfl⟩

/-- The report on a plan that was carried out in full. -/
def totals (a : Assembly) (source : Source) : Report where
  lines := source.lines.length
  words := (Step.puts (a.plan source)).length
  diagnostics := (Step.entries (a.plan source)).countP Listing.Entry.isDiagnostic
  comments := a.comments
  start := a.reportedStart

theorem length_planLines (a : Assembly) (lines : List Line) (poolLines : Array Line) :
    (a.planLines lines poolLines).1.length = lines.length := by
  simpa using congrArg List.length (a.planLines_annotates lines poolLines).1

/-- A second pass that succeeds lists the entries of its plan and reports its totals. -/
theorem passTwo_lists {a a' : Assembly} {source source' : Source} {o o' : Outputs}
    {report : Report} (ran : a.passTwo source o = (.ok report, source', a', o')) :
    o.Lists (Step.entries (a.plan source)) o' ∧ report = a.totals source := by
  simp only [passTwo] at ran
  split at ran
  · cases ran
  · next _ lines v listed =>
    generalize done : a.finish (a.report (a.planLines source.lines a.poolLines).1) v = r at ran
    obtain ⟨result, w⟩ := r
    cases ran
    obtain ⟨tail, rfl⟩ := finish_lists rfl done
    rw [totals, plan, Step.puts_append, puts_startSteps, List.append_nil, Step.entries_append,
      List.countP_append, ← Step.countP_isDiagnostic, ← Step.countP_isDiagnostic, Step.length_puts,
      ← a.length_planLines]
    exact ⟨(Outputs.lists_of_runLines listed).trans tail, rfl⟩

/-- What assembling a text comes to with outputs `o` that have no limit, told by the source `read`
and the state `a` that the first pass leaves. -/
structure Finishes (dialect : Dialect) (name text : String) (o : Outputs) (read : Source)
    (a : Assembly) (source : Source) (o' : Outputs) : Prop where
  ran : assemble dialect (.ofText name text) o =
    (.ok (a.totals read), source, { a with poolLines := a.poolLines.map a.annotate }, o')
  lines : source.lines = read.lines.map a.annotate
  listing : o.Lists (Step.entries (a.plan read)) o'
  puts : Step.puts (a.plan read) = a.words
  object : ∃ w, o.object.perform (Image.callsOf a.words a.reportedStart) = (.ok (), w) ∧
    w.close = (.ok (), o'.object)

/-- What a second pass asks of the writer. -/
theorem calls_eq (a : Assembly) (words : List (Int32 × Int32)) :
    Outputs.putCalls words ++ a.startCall = Image.callsOf words a.reportedStart := by
  rw [Outputs.putCalls, Image.callsOf, startCall, reportedStart]
  rcases a.startValue? with _ | failed | address
  · rfl
  · rfl
  · rfl

theorem finishes_ofText (dialect : Dialect) (name text : String) {o : Outputs}
    (unlimited : o.Unlimited) :
    ∃ source o', Finishes dialect name text o ((init dialect).passOne (.ofText name text)).1
      ((init dialect).passOne (.ofText name text)).2 source o' := by
  have accounted := accounted_ofText dialect name text
  have idle : ((init dialect).passOne (.ofText name text)).2.lineCode = [] := lineCode_passOne _ rfl
  generalize first : (init dialect).passOne (.ofText name text) = r at accounted idle ⊢
  obtain ⟨read, a⟩ := r
  obtain ⟨report, source, a', o', ran, performed, -⟩ := passTwo_of_unlimited unlimited read a
  obtain ⟨lines, rfl⟩ := accounted.passTwo_annotates idle ran
  obtain ⟨listed, rfl⟩ := passTwo_lists ran
  have puts := accounted.puts_plan idle
  rw [puts, calls_eq] at performed
  obtain ⟨object, closed⟩ := Image.Writer.close_of_unlimited
    (Image.Writer.limit_perform unlimited.object performed)
  refine ⟨source, { o' with object := object }, ?_, lines, listed, puts, _, performed, closed⟩
  simp only [assemble, run, first, ran, closed]
  rfl

section Finished

variable {dialect : Dialect} {name text name' text' : String} {o o₁ o₂ : Outputs}
  {read source read' source' : Source} {a a' : Assembly}

theorem Finishes.words_totals (run : Finishes dialect name text o read a source o₁) :
    (a.totals read).words = a.words.length :=
  congrArg List.length run.puts

/-- The image is told by the words and the starting address. -/
theorem Finishes.object_eq (run : Finishes dialect name text o read a source o₁)
    (run' : Finishes dialect name' text' o read' a' source' o₂) (words : a'.words = a.words)
    (start : a'.reportedStart = a.reportedStart) : o₂.object = o₁.object := by
  obtain ⟨w, performed, closed⟩ := run.object
  obtain ⟨w', performed', closed'⟩ := run'.object
  rw [words, start, performed] at performed'
  cases performed'
  exact congrArg Prod.snd (closed'.symm.trans closed)

end Finished

/-- What assembling a text comes to with empty outputs. -/
structure Assembles (dialect : Dialect) (name text : String) (read : Source) (a : Assembly)
    (report : Report) (source : Source) (o : Outputs) (image : Image) : Prop where
  ran : assemble dialect (.ofText name text) ⟨{}, .init {} .block⟩ =
    (.ok report, source, { a with poolLines := a.poolLines.map a.annotate }, o)
  lines : source.lines = read.lines.map a.annotate
  listing : o.listing.bytes = (Listing.textOf (Step.entries (a.plan read))).toUTF8.data
  decoded : Image.decode .block o.object.sink.bytes.toList = .ok image
  words : image.words = a.words.map Image.masked
  start : image.start = Image.readStart a.reportedStart
  counted : report.words = a.words.length
  diagnosed : report.diagnostics =
    (Step.entries (a.plan read)).countP Listing.Entry.isDiagnostic
  started : report.start = a.reportedStart

theorem assembles_ofText (dialect : Dialect) (name text : String) :
    ∃ report source o image,
      Assembles dialect name text ((init dialect).passOne (.ofText name text)).1
        ((init dialect).passOne (.ofText name text)).2 report source o image := by
  obtain ⟨source, o, run⟩ :=
    finishes_ofText dialect name text (o := ⟨{}, .init {} .block⟩) ⟨rfl, rfl⟩
  generalize (init dialect).passOne (.ofText name text) = r at run ⊢
  obtain ⟨read, a⟩ := r
  obtain ⟨w, performed, closed⟩ := run.object
  obtain ⟨bytes, encoded, decoded⟩ := Image.decode_encode .block
    (Image.callsOf a.words a.reportedStart)
  rw [Image.encode, performed] at encoded
  simp only [closed] at encoded
  obtain rfl : o.object.sink.bytes.toList = bytes := Except.ok.inj encoded
  rw [Image.blocks_eq_runs, Image.lastStart_callsOf, Image.puts_callsOf] at decoded
  exact ⟨_, source, o, _, run.ran, run.lines, Eq.trans run.listing Array.empty_append, decoded,
    Image.words_runs .., rfl, run.words_totals, rfl, rfl⟩

end Assembly

end Pds1
