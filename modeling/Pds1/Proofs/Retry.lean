import Pds1.Proofs.Session

/-!
# A second pass after one that failed

A second pass that fails while it lists the lines loses the lines of the literal pools. The lines of
the source keep their cells, so another second pass runs and puts the words of these cells, but not
the words of the pools. A pass that fails behind the last line, when it reports the starting
address, loses nothing.
-/

namespace Pds1

namespace Outputs

theorem code_runSteps (steps : List Step) (line : Line) (o : Outputs) :
    (o.runSteps steps line).2.1.code = line.code := by
  induction steps generalizing line o with
  | nil => rfl
  | cons step rest ih =>
    cases step with
    | note ds => exact ih _ o
    | list entry =>
      rw [runSteps]
      split
      · exact ih line _
      · rfl
    | put location word =>
      rw [runSteps]
      split
      · exact ih line _
      · rfl

/-- The lines of a source keep their cells, also those that are not reached. -/
theorem map_code_runLines (plans : List (Line × List Step)) (o : Outputs) :
    (o.runLines plans).2.1.map Line.code = plans.map fun plan => plan.1.code := by
  induction plans generalizing o with
  | nil => rfl
  | cons entry rest ih =>
    obtain ⟨line, steps⟩ := entry
    have own := code_runSteps steps line o
    rw [runLines]
    split
    · next ran =>
      rw [ran] at own
      simpa using own
    · next ran =>
      rw [ran] at own
      simpa [ih] using own

end Outputs

namespace Assembly

variable (a : Assembly) (source : Source)

theorem map_fst_planLines (lines : List Line) (poolLines : Array Line) :
    (a.planLines lines poolLines).1.map Prod.fst = lines := by
  induction lines generalizing poolLines with
  | nil => rfl
  | cons line rest ih => simp [planLines, ih]

/-- The second pass gets past the last line. -/
def ListsAll (o : Outputs) : Prop :=
  (o.runLines (a.planLines source.lines a.poolLines).1).1 = .ok ()

/-- The words that the lines of a source have of their own. -/
def ownWords : List (Int32 × Int32) := (source.lines.flatMap a.cells).filterMap a.placement?

/-- The words of the pools that a source refers to. -/
def pooledWords : List (Int32 × Int32) :=
  (((source.lines.flatMap a.cells).filter Cell.isPool).flatMap a.expand).filterMap a.placement?

/-- The plan puts the words of the pools in between the others. -/
theorem ownWords_sublist_puts : (a.ownWords source).Sublist (Step.puts (a.plan source)) ∧
    (Step.puts (a.plan source)).length =
      (a.ownWords source).length + (a.pooledWords source).length := by
  rw [puts_plan_eq, ownWords, pooledWords]
  induction source.lines.flatMap a.cells with
  | nil => simp
  | cons cell rest ih =>
    obtain ⟨sublist, length⟩ := ih
    by_cases pool : cell.isPool = true
    · have none : a.placement? cell = none := by
        simpa [pool] using a.isSome_placement? cell
      simp only [List.flatMap_cons, List.filterMap_append, List.filterMap_cons_none none,
        List.filter_cons_of_pos pool, List.length_append, length]
      exact ⟨sublist.trans (List.sublist_append_right ..), by omega⟩
    · obtain ⟨word, some⟩ := Option.isSome_iff_exists.mp
        ((a.isSome_placement? cell).trans (by simpa using pool))
      simp only [List.flatMap_cons, a.expand_plain (by simpa using pool), List.singleton_append,
        List.filterMap_cons_some some, List.filter_cons_of_neg pool, List.length_cons, length]
      exact ⟨sublist.cons_cons word, by omega⟩

theorem puts_eq_ownWords_iff :
    Step.puts (a.plan source) = a.ownWords source ↔ a.pooledWords source = [] := by
  obtain ⟨sublist, length⟩ := a.ownWords_sublist_puts source
  constructor
  · intro same
    rw [same] at length
    exact List.eq_nil_of_length_eq_zero (by omega)
  · intro none
    rw [none, List.length_nil, Nat.add_zero] at length
    exact (sublist.eq_of_length length.symm).symm

variable {a source}

/-- The words that a plan puts depend on the cells that the lines have, and on nothing else about
them. -/
theorem puts_plan_congr {source' : Source} {lines : Array Line}
    (codes : source'.lines.map Line.code = source.lines.map Line.code)
    (same : lines.map Line.code = a.poolLines.map Line.code) :
    Step.puts (plan source' { a with poolLines := lines }) = Step.puts (a.plan source) := by
  have cells (ls : List Line) : ls.flatMap a.cells = (ls.map Line.code).flatMap a.cellsAt := by
    rw [List.flatMap_map]
    rfl
  have same : lines.toList.map Line.code = a.poolLines.toList.map Line.code := by
    simpa using congrArg Array.toList same
  have expand : expand { a with poolLines := lines } = a.expand := by
    funext cell
    simp only [Assembly.expand]
    split
    · change List.flatMap a.cells _ = _
      rw [cells, cells, List.map_take, List.map_drop, same, List.map_take, List.map_drop]
    · rfl
  rw [puts_plan_eq, puts_plan_eq, expand, cells, ← codes, ← cells]
  rfl

/-- Without the pool lines the pools put nothing. -/
theorem puts_plan_of_lost {source' : Source}
    (codes : source'.lines.map Line.code = source.lines.map Line.code) :
    Step.puts (plan source' { a with poolLines := #[] }) = a.ownWords source := by
  have own : ownWords { a with poolLines := #[] } source' = a.ownWords source := by
    change (source'.lines.flatMap a.cells).filterMap a.placement? = _
    rw [ownWords, flatMap_cells, flatMap_cells, List.flatMap_def, codes, ← List.flatMap_def]
  have none : pooledWords { a with poolLines := #[] } source' = [] := by
    rw [pooledWords, List.filterMap_eq_nil_iff]
    intro cell member
    obtain ⟨pool, inside, found⟩ := List.mem_flatMap.mp member
    have isPool := (List.mem_filter.mp inside).2
    cases content : pool.content with
    | pool first count => simp [expand, content] at found
    | word value => simp [Cell.isPool, content] at isPool
    | expr id => simp [Cell.isPool, content] at isPool
  rw [← own]
  exact (puts_eq_ownWords_iff _ _).mpr none

/-- What a second pass that fails leaves: the lines of the source with their cells, and the pool
lines if all lines were listed. -/
theorem passTwo_leaves (a : Assembly) (source : Source) (o : Outputs) :
    (a.passTwo source o).2.1.lines.map Line.code = source.lines.map Line.code ∧
      ((a.ListsAll source o ∧ ∃ lines, (a.passTwo source o).2.2.1 = { a with poolLines := lines } ∧
          lines.map Line.code = a.poolLines.map Line.code) ∨
        ¬ a.ListsAll source o ∧ (a.passTwo source o).2.2.1 = { a with poolLines := #[] }) := by
  have codes := o.map_code_runLines (a.planLines source.lines a.poolLines).1
  have fsts := a.map_fst_planLines source.lines a.poolLines
  have bare := a.map_bare_planLines source.lines a.poolLines
  have kept : source.lines.map Line.code =
      (a.planLines source.lines a.poolLines).1.map fun plan => plan.1.code := by
    rw [← Function.comp_def Line.code Prod.fst, ← List.map_map, fsts]
  rw [kept, ← codes]
  simp only [passTwo, ListsAll]
  rcases o.runLines (a.planLines source.lines a.poolLines).1 with ⟨e | _, lines, o⟩
  · exact ⟨rfl, .inr ⟨by simp, rfl⟩⟩
  · refine ⟨rfl, .inl ⟨rfl, _, rfl, ?_⟩⟩
    simpa [Function.comp_def, Line.bare] using congrArg (Array.map Line.code) bare

theorem startCall_passTwo (a : Assembly) (source : Source) (o : Outputs) :
    startCall (a.passTwo source o).2.2.1 = a.startCall := by
  obtain ⟨-, ⟨-, lines, left, -⟩ | ⟨-, left⟩⟩ := a.passTwo_leaves source o
  · rw [left]
    rfl
  · rw [left]
    rfl

/-- A second pass can be tried again, on outputs without a limit. It puts the same words as if the
first attempt had not been made exactly if that attempt listed all lines or the pools hold no word;
otherwise the words of the pools are missing. -/
theorem retry_puts_same_iff (source : Source) (a : Assembly) (o : Outputs) {o' : Outputs}
    (unlimited : o'.Unlimited) :
    let source' := (a.passTwo source o).2.1
    let a' := (a.passTwo source o).2.2.1
    (∃ report s t u, a.passTwo source o' = (.ok report, s, t, u) ∧
      o'.object.perform (Outputs.putCalls (Step.puts (a.plan source)) ++ a.startCall) =
        (.ok (), u.object)) ∧
    (∃ report s t u, a'.passTwo source' o' = (.ok report, s, t, u) ∧
      o'.object.perform (Outputs.putCalls (Step.puts (a'.plan source')) ++ a.startCall) =
        (.ok (), u.object)) ∧
    (¬ a.ListsAll source o → Step.puts (a'.plan source') = a.ownWords source) ∧
    (Step.puts (a'.plan source') = Step.puts (a.plan source) ↔
      a.ListsAll source o ∨ a.pooledWords source = []) := by
  intro source' a'
  obtain ⟨report, s, t, u, alone, words, -⟩ := passTwo_of_unlimited unlimited source a
  obtain ⟨report', s', t', u', again, words', -⟩ := passTwo_of_unlimited unlimited source' a'
  rw [startCall_passTwo] at words'
  refine ⟨⟨report, s, t, u, alone, words⟩, ⟨report', s', t', u', again, words'⟩, ?_⟩
  obtain ⟨codes, ⟨listed, lines, left, same⟩ | ⟨unlisted, left⟩⟩ := a.passTwo_leaves source o
  · have puts : Step.puts (a'.plan source') = Step.puts (a.plan source) := by
      simp only [a', left]
      exact puts_plan_congr codes same
    exact ⟨fun unlisted => absurd listed unlisted, iff_of_true puts (.inl listed)⟩
  · have puts : Step.puts (a'.plan source') = a.ownWords source := by
      simp only [a', left]
      exact puts_plan_of_lost codes
    refine ⟨fun _ => puts, ?_⟩
    rw [puts, eq_comm, puts_eq_ownWords_iff]
    exact ⟨.inr, fun h => h.resolve_left unlisted⟩

theorem listing_stops :
    let source := ((init .midas).passOne (.ofText "retry" "\tLAC [7]")).1
    let a := ((init .midas).passOne (.ofText "retry" "\tLAC [7]")).2
    (Outputs.runLines (a.planLines source.lines a.poolLines).1
      ⟨{ limit := some 0 }, .init {} .block⟩).1 = .error .full := by
  decide +kernel

/-- A listing that takes nothing stops the first attempt at the first line. -/
theorem retry_after_full_listing :
    let source := ((init .midas).passOne (.ofText "retry" "\tLAC [7]")).1
    let a := ((init .midas).passOne (.ofText "retry" "\tLAC [7]")).2
    let attempt := a.passTwo source ⟨{ limit := some 0 }, .init {} .block⟩
    (Outputs.mk {} (.init {} .block)).Unlimited ∧
      Step.puts (attempt.2.2.1.plan attempt.2.1) = a.ownWords source := by
  have unlimited : (Outputs.mk {} (.init {} .block)).Unlimited := ⟨rfl, rfl⟩
  have again := retry_puts_same_iff ((init .midas).passOne (.ofText "retry" "\tLAC [7]")).1
    ((init .midas).passOne (.ofText "retry" "\tLAC [7]")).2
    ⟨{ limit := some 0 }, .init {} .block⟩ unlimited
  refine ⟨unlimited, again.2.2.1 ?_⟩
  rw [ListsAll, listing_stops]
  simp

/-- The word of a literal is put by a pass of its own and missing from a second attempt. -/
theorem literal_missing_after_retry :
    let source := ((init .midas).passOne (.ofText "retry" "\tLAC [7]")).1
    let a := ((init .midas).passOne (.ofText "retry" "\tLAC [7]")).2
    let attempt := a.passTwo source ⟨{ limit := some 0 }, .init {} .block⟩
    attempt.1 = .error .full ∧ Step.puts (a.plan source) = [(0, 0o60001), (1, 7)] ∧
      Step.puts (attempt.2.2.1.plan attempt.2.1) = [(0, 0o60001)] := by
  refine ⟨?_, ?_, ?_⟩
  · decide +kernel
  · decide +kernel
  · decide +kernel

end Assembly

end Pds1
