import Pds1.Proofs.SecondPass
import Pds1.Proofs.Tasks

/-!
# Sessions

A session runs first and second passes over any sources, in any order, on one state. Between two
passes no literal waits. The lines of the literal pools are numbered from one and stand in the order
in which their literals were created; a second pass only adds to their diagnostics, or loses them
all if it fails while it lists.
-/

namespace Pds1

/-- A line without its diagnostics. -/
def Line.bare (line : Line) : Line := { line with diagnostics := [] }

namespace Assembly

/-- A call that a session makes. -/
inductive Pass where
  | first (source : Source)
  | second (source : Source) (o : Outputs)

namespace Pass

/-- What a pass leaves for the next one. -/
def run : Pass → Assembly → Assembly
  | first source, a => (a.passOne source).2
  | second source o, a => (a.passTwo source o).2.2.1

/-- A first pass cannot fail. -/
def Succeeds : Pass → Assembly → Prop
  | first _, _ => True
  | second source o, a => ∃ report, (a.passTwo source o).1 = .ok report

end Pass

def session (passes : List Pass) (a : Assembly) : Assembly :=
  passes.foldl (fun a pass => pass.run a) a

/-- Every pass of the session succeeds. -/
def Completes : List Pass → Assembly → Prop
  | [], _ => True
  | pass :: rest, a => pass.Succeeds a ∧ Completes rest (pass.run a)

/-- The first `k` pool lines are gone; the others belong to the literals in order. -/
structure Listed (k : Nat) (a : Assembly) : Prop where
  inOrder : a.symbols.InOrder (k + a.poolLines.size)
  lines : ∀ i line, a.poolLines[i]? = some line →
    line.number = i + 1 ∧ line.text = a.symbols.literalText (k + i)

/-- Nothing waits between two passes. -/
structure Settled (k : Nat) (a : Assembly) : Prop extends Listed k a where
  idle : a.symbols.queue = []

theorem settled_init (dialect : Dialect) : Settled 0 (init dialect) where
  inOrder := SymbolTable.inOrder_empty
  lines i line h := by simp [init] at h
  idle := rfl

section Listing

variable {k : Nat} {a b : Assembly} {ts : List Task}

theorem Listed.lt_size (h : Listed k a) {i : Nat} {line : Line}
    (found : a.poolLines[i]? = some line) : k + i < a.symbols.literals.size := by
  have inside := (Array.getElem?_eq_some_iff.mp found).1
  have count := h.inOrder.count
  omega

/-- While literals are created the pool lines keep their literals. -/
theorem Listed.interns (h : Listed k a) {texts : List String}
    (new : a.symbols.Interns texts b.symbols) (same : b.poolLines = a.poolLines) : Listed k b := by
  refine ⟨same ▸ h.inOrder.interns new, ?_⟩
  intro i line found
  rw [same] at found
  rw [new.literalText (h.lt_size found)]
  exact h.lines i line found

theorem Path.listed (h : Path a ts b) (start : Listed k a) : Listed k b := by
  induction h with
  | refl => exact start
  | task _ _ ih => exact ih
  | move _ m ih =>
    obtain ⟨texts, interned, -⟩ := m.pays
    obtain ⟨cells, added⟩ := emits_of_reads_refusePool (.single m)
    exact ih.interns interned added.poolLines
  | turn _ _ _ _ _ ih => exact ⟨ih.inOrder, ih.lines⟩
  | restart _ ih => exact ⟨ih.inOrder, ih.lines⟩
  | @place _ id m path task next fresh ih =>
    have ordered := (path.place task next fresh).inOrder start.inOrder
    obtain ⟨number, inside⟩ := path.front start.inOrder task next
    obtain ⟨cells, added⟩ := emits_literalBody id m
    refine ⟨ordered, ?_⟩
    intro i line found
    simp only [placeLiteral_eq, Array.getElem?_push] at found ⊢
    rw [SymbolTable.literalText_place]
    split at found
    · next last =>
      cases found
      obtain ⟨texts, interned, -⟩ := interns_literalBody id m
      rw [last, added.poolLines, ← number, interned.literalText inside]
      exact ⟨rfl, rfl⟩
    · exact ih.lines i line found
  | mark _ _ _ ih => exact ⟨ih.inOrder, ih.lines⟩

theorem queue_readLines (lines : List Line) {a : Assembly}
    (h : a.symbols.InOrder (k + a.poolLines.size)) (idle : lines = [] → a.symbols.queue = []) :
    (readLines lines a).2.symbols.queue = [] := by
  induction lines generalizing a with
  | nil => exact idle rfl
  | cons line rest ih =>
    have first := (path_readLine line h).inOrder h
    simp only [readLines]
    split
    · exact queue_placePool first
    · next more =>
      refine ih first fun last => ?_
      simp [last] at more

theorem Settled.passOne (h : Settled k a) (source : Source) : Settled k (a.passOne source).2 where
  toListed := (path_passOne source h.inOrder).listed h.toListed
  idle := queue_readLines (a := { a with location := 0 }) source.lines h.inOrder fun _ => h.idle

theorem Settled.size_poolLines (h : Settled 0 a) :
    a.poolLines.size = a.symbols.literals.size := by
  have count := h.inOrder.count
  have empty := h.inOrder.queue.symm.trans h.idle
  rw [List.range'_eq_nil_iff] at empty
  omega

end Listing

/-- Whatever the plans for pools keep, the plan for a line keeps. -/
theorem planCells_keeps {σ : Type} (a : Assembly) (view : LineView)
    (pool : Nat → Nat → σ → List Step × σ) (Kept : σ → Prop)
    (pools : ∀ first count s, Kept s → Kept (pool first count s).2) (cells : List Cell)
    (listed : Bool) (reported : Nat) (ds : List Diagnostic) {s : σ} (kept : Kept s) :
    Kept (a.planCells view pool cells listed reported ds s).2.2 := by
  induction cells generalizing listed reported ds s with
  | nil => exact kept
  | cons cell rest ih =>
    obtain ⟨line, location, content⟩ := cell
    cases content with
    | word value => exact ih _ _ _ kept
    | expr id => exact ih _ _ _ kept
    | pool first count => exact ih _ _ _ (pools first count s kept)

section Planning

variable (a : Assembly)

theorem map_bare_planPool (i count : Nat) (lines : Array Line) :
    (a.planPool i count lines).2.map Line.bare = lines.map Line.bare := by
  induction count generalizing i lines with
  | zero => rfl
  | succ count ih =>
    cases found : lines[i]? with
    | none => simp only [planPool, found]
    | some line =>
      simp only [planPool, found]
      rw [ih]
      exact map_setIfInBounds_of_eq found rfl

theorem map_bare_planLine (line : Line) (lines : Array Line) :
    (a.planLine line lines).2.map Line.bare = lines.map Line.bare :=
  a.planCells_keeps _ (fun first count lines => a.planPool (first - 1) count lines)
    (fun lines' => lines'.map Line.bare = lines.map Line.bare)
    (fun _ _ _ kept => (a.map_bare_planPool _ _ _).trans kept) _ _ _ _ rfl

/-- Planning a source changes nothing in the pool lines but their diagnostics. -/
theorem map_bare_planLines (source : List Line) (lines : Array Line) :
    (a.planLines source lines).2.map Line.bare = lines.map Line.bare := by
  induction source generalizing lines with
  | nil => rfl
  | cons line rest ih => exact (ih _).trans (a.map_bare_planLine line lines)

/-- A second pass keeps everything but the pool lines. Those are lost if listing the lines fails,
and otherwise only their diagnostics change. -/
theorem passTwo_cases (source : Source) (o : Outputs) :
    ((a.passTwo source o).2.2.1 = { a with poolLines := #[] } ∧
      ∃ e, (a.passTwo source o).1 = .error e) ∨
    ∃ lines, (a.passTwo source o).2.2.1 = { a with poolLines := lines } ∧
      lines.map Line.bare = a.poolLines.map Line.bare := by
  simp only [passTwo]
  split
  · next e _ _ _ => exact .inl ⟨rfl, e, rfl⟩
  · exact .inr ⟨_, rfl, a.map_bare_planLines source.lines a.poolLines⟩

end Planning

section Sessions

variable {k : Nat} {a : Assembly}

theorem Settled.replaceLines (h : Settled k a) {lines : Array Line}
    (same : lines.map Line.bare = a.poolLines.map Line.bare) :
    Settled k { a with poolLines := lines } := by
  have size : lines.size = a.poolLines.size := by simpa using congrArg Array.size same
  refine ⟨⟨?_, ?_⟩, h.idle⟩
  · simpa [size] using h.inOrder
  · intro i line found
    have entry : (a.poolLines.map Line.bare)[i]? = some line.bare := by
      rw [← same, Array.getElem?_map, found]
      rfl
    rw [Array.getElem?_map] at entry
    obtain ⟨line', found', eq⟩ := Option.map_eq_some_iff.mp entry
    have numbers : line'.bare.number = line.bare.number := congrArg Line.number eq
    have texts : line'.bare.text = line.bare.text := congrArg Line.text eq
    simp only [Line.bare] at numbers texts
    rw [← numbers, ← texts]
    exact h.lines i line' found'

/-- A second pass that fails makes the pool lines start again at one. -/
theorem Settled.loseLines (h : Settled k a) :
    Settled (k + a.poolLines.size) { a with poolLines := #[] } where
  inOrder := h.inOrder
  lines i line found := by simp at found
  idle := h.idle

/-- A pass that succeeds loses no pool line. -/
theorem Settled.run (h : Settled k a) (pass : Pass) :
    ∃ k', Settled k' (pass.run a) ∧ (pass.Succeeds a → k' = k) := by
  cases pass with
  | first source => exact ⟨k, h.passOne source, fun _ => rfl⟩
  | second source o =>
    simp only [Pass.run, Pass.Succeeds]
    rcases a.passTwo_cases source o with ⟨lost, e, failed⟩ | ⟨lines, kept, same⟩
    · refine ⟨_, lost ▸ h.loseLines, ?_⟩
      rintro ⟨report, ok⟩
      cases ok.symm.trans failed
    · exact ⟨k, kept ▸ h.replaceLines same, fun _ => rfl⟩

/-- In every session the state settles between the passes. -/
theorem Settled.session (h : Settled k a) (passes : List Pass) :
    ∃ k', Settled k' (session passes a) ∧ (Completes passes a → k' = k) := by
  induction passes generalizing k a with
  | nil => exact ⟨k, h, fun _ => rfl⟩
  | cons pass rest ih =>
    obtain ⟨k₁, first, kept⟩ := h.run pass
    obtain ⟨k₂, later, kept'⟩ := ih first
    exact ⟨k₂, later, fun ok => (kept' ok.2).trans (kept ok.1)⟩

end Sessions

end Assembly

end Pds1
