import Pds1.Proofs.ListingAccount

/-!
# The end of a program

Reading stops after the line that ends the program. What follows that line is carried along unread:
it is listed, but it adds no cell, no symbol, no diagnostic and no comment. Two texts that agree up
to such a line therefore assemble to the same image, and their reports differ only in how many lines
there are.
-/

namespace Pds1

namespace Assembly

/-- The state after reading lines, one after the other. -/
def afterLines (lines : List Line) (a : Assembly) : Assembly :=
  lines.foldl (fun a line => (readLine line a).2) a

/-- Once a line has ended the program, reading does not depend on what comes after it. -/
theorem readLines_of_ended {before : List Line} {a : Assembly}
    (ends : (afterLines before a).ended = true) (running : a.ended = false) :
    ∃ done b, ∀ after, readLines (before ++ after) a = (done ++ after, b) := by
  induction before generalizing a with
  | nil => cases running.symm.trans ends
  | cons line before ih =>
    by_cases here : (readLine line a).2.ended = true
    · refine ⟨(fileInto (readLine line a).1 (readLine line a).2.placePool).1 :: before,
        (fileInto (readLine line a).1 (readLine line a).2.placePool).2, fun after => ?_⟩
      simp only [List.cons_append, readLines, here, Bool.true_or, if_true]
    · obtain ⟨done, b, read⟩ := ih ends (Bool.eq_false_of_not_eq_true here)
      refine ⟨(readLine line a).1 :: done, b, fun after => ?_⟩
      -- a line that ends the program is still to come, so this one is not the last
      have more : (before ++ after).isEmpty = false := by
        cases before with
        | nil => exact absurd ends here
        | cons => rfl
      simp only [List.cons_append, readLines, here, more, read after]
      rfl

/-- All texts that begin with the same lines and end the program with them leave the same state,
and their other lines are as they were. -/
theorem passOne_of_ended {dialect : Dialect} {name text : String} {i : Nat}
    (ends : (afterLines ((Source.ofText name text).lines.take i) (init dialect)).ended = true) :
    ∃ (done : List Line) (b : Assembly), ∀ name' text',
      (Source.ofText name' text').lines.take i = (Source.ofText name text).lines.take i →
      ∃ log, (init dialect).passOne (.ofText name' text') =
        (⟨name', done ++ (Source.ofText name' text').lines.drop i⟩, { b with log := log }) := by
  obtain ⟨done, b, read⟩ := readLines_of_ended ends rfl
  refine ⟨done, b, fun name' text' same => ?_⟩
  have whole := read ((Source.ofText name' text').lines.drop i)
  rw [← same, List.take_append_drop] at whole
  have restarted : { init dialect with location := 0 } = init dialect := rfl
  simp only [passOne, restarted, whole]
  exact ⟨_, rfl⟩

/-- Lines that were never read have no diagnostics in the end. -/
theorem finalDiagnostics_unread (a : Assembly) {name text : String} {lines : List Line}
    (unread : ∀ line ∈ lines, line ∈ (Source.ofText name text).lines) :
    a.finalDiagnostics lines = [] := by
  refine List.flatMap_eq_nil_iff.mpr fun line member => ?_
  obtain ⟨entry, -, rfl⟩ := List.mem_map.mp (unread line member)
  rfl

/-- The diagnostics in a report are those left on all lines, and two more for a starting address
without a value. -/
theorem diagnostics_totals {dialect : Dialect} {name text : String} {read : Source} {a : Assembly}
    (pass : (init dialect).passOne (.ofText name text) = (read, a)) :
    (a.totals read).diagnostics = (a.finalDiagnostics read.lines).length +
      (a.finalDiagnostics a.poolLines.toList).length + if a.startFails then 2 else 0 := by
  have accounted := accounted_ofText dialect name text
  have idle : ((init dialect).passOne (.ofText name text)).2.lineCode = [] := lineCode_passOne _ rfl
  obtain ⟨own, clean⟩ := unbroken_passOne dialect name text
  rw [pass] at accounted idle own clean
  exact (accounted.shows_plan idle clean own).diagnostics

theorem totals_eq {a a' : Assembly} {source source' : Source}
    (words : (a'.totals source').words = (a.totals source).words)
    (diagnostics : (a'.totals source').diagnostics = (a.totals source).diagnostics)
    (comments : a'.comments = a.comments) (start : a'.reportedStart = a.reportedStart) :
    a'.totals source' = { a.totals source with lines := (a'.totals source').lines } := by
  have fields : a'.totals source' = ⟨(a'.totals source').lines, (a'.totals source').words,
      (a'.totals source').diagnostics, a'.comments, a'.reportedStart⟩ := rfl
  rw [fields, words, diagnostics, comments, start]
  rfl

/-- If reading the first `i` lines of a text ends the program, every text with these first lines
leads to the same state and the same image, and to a report that differs in the number of lines
only. -/
theorem text_after_end_ignored (dialect : Dialect) {name text name' text' : String} {i : Nat}
    (ends : (afterLines ((Source.ofText name text).lines.take i) (init dialect)).ended = true)
    (same : (Source.ofText name' text').lines.take i = (Source.ofText name text).lines.take i)
    {o : Outputs} (unlimited : o.Unlimited) :
    let first := ((init dialect).passOne (.ofText name text)).2
    let first' := ((init dialect).passOne (.ofText name' text')).2
    first' = { first with log := first'.log } ∧
    ∃ report source a o₁ report' source' a' o₂,
      assemble dialect (.ofText name text) o = (.ok report, source, a, o₁) ∧
      assemble dialect (.ofText name' text') o = (.ok report', source', a', o₂) ∧
      a' = { a with log := a'.log } ∧
      o₂.object = o₁.object ∧
      report' = { report with lines := report'.lines } := by
  intro first first'
  obtain ⟨done, b, pass⟩ := passOne_of_ended ends
  obtain ⟨source, o₁, run⟩ := finishes_ofText dialect name text unlimited
  obtain ⟨source', o₂, run'⟩ := finishes_ofText dialect name' text' unlimited
  obtain ⟨log, left⟩ := pass name text rfl
  obtain ⟨log', left'⟩ := pass name' text' same
  have counted := diagnostics_totals left
  have counted' := diagnostics_totals left'
  rw [finalDiagnostics_append, finalDiagnostics_unread _ fun line => List.mem_of_mem_drop,
    List.append_nil] at counted counted'
  rw [left] at run
  rw [left'] at run'
  refine ⟨?_, _, source, _, o₁, _, source', _, o₂, run.ran, run'.ran, rfl,
    run.object_eq run' rfl rfl, ?_⟩
  · simp only [first, first', left, left']
  · have words := run'.words_totals.trans run.words_totals.symm
    exact totals_eq words (counted'.trans counted.symm) rfl rfl

/-- After the end one text goes on with a comment and a word, the other one with a line that could
not be read. -/
theorem text_after_end_ignored_comment :
    let text := "A:\tLAC [7]\n\tEND A\n; more\n\tDATA 9"
    let text' := "A:\tLAC [7]\n\tEND A\n\tLAC )"
    (afterLines ((Source.ofText "end" text).lines.take 2) (init .midas)).ended = true ∧
      (Source.ofText "end" text).lines ≠ (Source.ofText "end" text').lines ∧
      ∃ report source a o report' source' a' o',
        assemble .midas (.ofText "end" text) ⟨{}, .init {} .block⟩ = (.ok report, source, a, o) ∧
        assemble .midas (.ofText "end" text') ⟨{}, .init {} .block⟩ =
          (.ok report', source', a', o') ∧
        o'.object = o.object ∧ report' = { report with lines := report'.lines } := by
  intro text text'
  have ends : (afterLines ((Source.ofText "end" text).lines.take 2) (init .midas)).ended =
      true := by decide +kernel
  have same : (Source.ofText "end" text').lines.take 2 =
      (Source.ofText "end" text).lines.take 2 := by decide +kernel
  obtain ⟨-, report, source, a, o, report', source', a', o', ran, ran', -, object, totals⟩ :=
    text_after_end_ignored .midas ends same (o := ⟨{}, .init {} .block⟩) ⟨rfl, rfl⟩
  exact ⟨ends, by decide +kernel, report, source, a, o, report', source', a', o', ran, ran', object,
    totals⟩

end Assembly

end Pds1
