import Pds1.Proofs.Retry

/-!
# Positions stay in range

Lines keep the positions of their cells from one pass to the next, and pool cells keep the numbers
of their lines even when a second pass has lost them. The second pass is walked here with every
access checked: a position in the code list, the number of a pool's first line, a pool line, the
diagnostics from some position on, and no pool inside a pool line. Whatever passes have run before
on the same sources, no check fails, and the walk gives the plan.
-/

namespace Pds1

/-- The diagnostics from a position that must exist. -/
def Step.reportFrom? (diagnostics : List Diagnostic) (reported : Nat) : Option (List Step) :=
  if reported ≤ diagnostics.length then some (report diagnostics reported) else none

namespace Assembly

/-- Walks over the cells of a line. -/
def walkCells {σ : Type} (a : Assembly) (view : LineView)
    (pool : Nat → Nat → σ → Option (List Step × σ)) :
    List Nat → Bool → Nat → List Diagnostic → σ → Option (List Step × List Diagnostic × σ)
  | [], listed, reported, ds, s => do
    let told ← Step.reportFrom? ds reported
    return (view.source listed ++ told, ds, s)
  | i :: rest, listed, reported, ds, s => do
    let cell ← a.code[i]?
    match cell.content with
    | .word value =>
      let (steps, r) ← walkCells a view pool rest true reported ds s
      return (view.word listed cell.location value ++ steps, r)
    | .expr id =>
      let (value, new) := a.cellValue id
      let (steps, r) ← walkCells a view pool rest true reported (ds ++ new) s
      return (view.note new ++ view.word listed cell.location value ++ steps, r)
    | .pool first count =>
      let told ← Step.reportFrom? ds reported
      let (inner, s) ← pool first count s
      let (steps, r) ← walkCells a view pool rest true ds.length ds s
      return (view.source listed ++ told ++ inner ++ steps, r)

/-- A pool inside a pool line is out of range. -/
def walkPoolLine (a : Assembly) (line : Line) : Option (List Step × Line) := do
  let (steps, ds, _) ← a.walkCells ⟨line.text, none⟩ (fun _ _ _ => none) line.code false 0
    line.diagnostics ()
  return (steps, { line with diagnostics := ds })

/-- Walks over `count` pool lines from position `i` on, all of which must exist. -/
def walkPoolLines (a : Assembly) (i : Nat) : Nat → Array Line → Option (List Step × Array Line)
  | 0, lines => some ([], lines)
  | count + 1, lines => do
    let line ← lines[i]?
    let (steps, line) ← a.walkPoolLine line
    let (rest, lines) ← a.walkPoolLines (i + 1) count (lines.setIfInBounds i line)
    return (steps ++ rest, lines)

/-- The first line of a pool is counted from one. Lines that have been lost are left out. -/
def walkPool (a : Assembly) (first count : Nat) (lines : Array Line) :
    Option (List Step × Array Line) :=
  if first = 0 then none
  else a.walkPoolLines (first - 1) (min (first - 1 + count) lines.size - (first - 1)) lines

def walkLine (a : Assembly) (line : Line) (poolLines : Array Line) :
    Option (List Step × Array Line) := do
  let (steps, _, poolLines) ← a.walkCells ⟨line.text, some line.number⟩ a.walkPool line.code false 0
    line.diagnostics poolLines
  return (steps, poolLines)

/-- Walks over the lines of a source. -/
def walkLines (a : Assembly) :
    List Line → Array Line → Option (List (Line × List Step) × Array Line)
  | [], poolLines => some ([], poolLines)
  | line :: rest, poolLines => do
    let (steps, poolLines) ← a.walkLine line poolLines
    let (plans, poolLines) ← a.walkLines rest poolLines
    return ((line, steps) :: plans, poolLines)

section Walking

variable {a : Assembly}

/-- Where positions are in range and the walks over pools give their plans, so does the walk over a
line. -/
theorem walkCells_eq {σ : Type} (view : LineView) {pool : Nat → Nat → σ → Option (List Step × σ)}
    {plan : Nat → Nat → σ → List Step × σ} (Kept : σ → Prop) {positions : List Nat}
    (inRange : ∀ i ∈ positions, i < a.code.size)
    (pools : ∀ i ∈ positions, ∀ cell, a.code[i]? = some cell → ∀ first count,
      cell.content = .pool first count → ∀ s, Kept s →
        pool first count s = some (plan first count s) ∧ Kept (plan first count s).2)
    (listed : Bool) {reported : Nat} {ds : List Diagnostic} (told : reported ≤ ds.length) {s : σ}
    (kept : Kept s) :
    a.walkCells view pool positions listed reported ds s =
      some (a.planCells view plan (a.cellsAt positions) listed reported ds s) := by
  induction positions generalizing listed reported ds s with
  | nil => simp [walkCells, planCells, cellsAt, Step.reportFrom?, told]
  | cons i rest ih =>
    have inside : i < a.code.size := inRange i (by simp)
    have found := Array.getElem?_eq_getElem inside
    have ih := ih (fun j member => inRange j (by simp [member]))
      (fun j member => pools j (by simp [member]))
    have own := pools i (by simp) _ found
    have cells : a.cellsAt (i :: rest) = a.code[i] :: a.cellsAt rest := by
      simp [cellsAt, found]
    rw [cells]
    generalize a.code[i] = cell at found own ⊢
    obtain ⟨line, location, content⟩ := cell
    cases content with
    | word value => simp [walkCells, planCells, found, ih true told kept]
    | expr id =>
      have grown : reported ≤ (ds ++ (a.cellValue id).2).length := by
        rw [List.length_append]
        omega
      simp [walkCells, planCells, found, ih true grown kept]
    | pool first count =>
      obtain ⟨walked, kept'⟩ := own first count rfl s kept
      simp [walkCells, planCells, found, Step.reportFrom?, told, walked,
        ih true (Nat.le_refl ds.length) kept']

/-- The cells of the lines are there, and none of them is a pool. -/
def Plain (a : Assembly) (lines : Array Line) : Prop :=
  ∀ line ∈ lines, ∀ i ∈ line.code, ∃ cell, a.code[i]? = some cell ∧ cell.isPool = false

theorem Plain.set {lines : Array Line} (h : a.Plain lines) {i : Nat} {line line' : Line}
    (found : lines[i]? = some line) (same : line'.code = line.code) :
    a.Plain (lines.setIfInBounds i line') := by
  intro other member
  rcases Array.mem_or_eq_of_mem_setIfInBounds member with old | rfl
  · exact h other old
  · rw [same]
    exact h line (Array.mem_of_getElem? found)

theorem walkPoolLine_eq {line : Line}
    (plain : ∀ i ∈ line.code, ∃ cell, a.code[i]? = some cell ∧ cell.isPool = false) :
    a.walkPoolLine line = some (a.planPoolLine line) := by
  have inRange : ∀ i ∈ line.code, i < a.code.size := by
    intro i member
    obtain ⟨cell, found, -⟩ := plain i member
    exact (Array.getElem?_eq_some_iff.mp found).1
  have pools : ∀ i ∈ line.code, ∀ cell, a.code[i]? = some cell → ∀ first count,
      cell.content = .pool first count → ∀ s : Unit, True →
        (none : Option (List Step × Unit)) = some ([], s) ∧ True := by
    intro i member cell found first count content
    obtain ⟨cell', found', no⟩ := plain i member
    cases found.symm.trans found'
    simp [Cell.isPool, content] at no
  have walked := walkCells_eq ⟨line.text, none⟩ (fun _ : Unit => True) inRange pools false
    (Nat.zero_le line.diagnostics.length) (s := ()) trivial
  rw [walkPoolLine, walked]
  rfl

theorem plain_planPool (i count : Nat) {lines : Array Line} (h : a.Plain lines) :
    a.Plain (a.planPool i count lines).2 := by
  induction count generalizing i lines with
  | zero => exact h
  | succ count ih =>
    simp only [planPool]
    split
    · exact h
    · next line found => exact ih (i + 1) (h.set found (a.code_planPoolLine line))

/-- The walk over a pool stops where the plan does, at the last line that is there. -/
theorem walkPoolLines_eq (i count : Nat) {lines : Array Line} (h : a.Plain lines) :
    a.walkPoolLines i (min (i + count) lines.size - i) lines = some (a.planPool i count lines) := by
  induction count generalizing i lines with
  | zero =>
    have nothing : min (i + 0) lines.size - i = 0 := by omega
    rw [nothing]
    rfl
  | succ count ih =>
    by_cases inside : i < lines.size
    · have found := Array.getElem?_eq_getElem inside
      have more : min (i + (count + 1)) lines.size - i =
          (min (i + 1 + count) lines.size - (i + 1)) + 1 := by omega
      have walked := walkPoolLine_eq (h lines[i] (Array.getElem_mem inside))
      have later := ih (i + 1) (h.set found (a.code_planPoolLine lines[i]))
      rw [Array.size_setIfInBounds] at later
      simp [more, walkPoolLines, planPool, found, walked, later]
    · have nothing : min (i + (count + 1)) lines.size - i = 0 := by omega
      have absent : lines[i]? = none := Array.getElem?_eq_none (by omega)
      rw [nothing]
      simp [walkPoolLines, planPool, absent]

theorem walkPool_eq {first : Nat} (positive : 1 ≤ first) (count : Nat) {lines : Array Line}
    (h : a.Plain lines) :
    a.walkPool first count lines = some (a.planPool (first - 1) count lines) := by
  have nonzero : first ≠ 0 := by omega
  rw [walkPool, if_neg nonzero]
  exact walkPoolLines_eq (first - 1) count h

/-- Every pool cell counts its lines from one. -/
def CountsFromOne (a : Assembly) : Prop :=
  ∀ cell ∈ a.code, ∀ first count, cell.content = .pool first count → 1 ≤ first

theorem walkLine_eq (pools : a.CountsFromOne) {line : Line}
    (inRange : ∀ i ∈ line.code, i < a.code.size) {lines : Array Line} (h : a.Plain lines) :
    a.walkLine line lines = some (a.planLine line lines) ∧ a.Plain (a.planLine line lines).2 := by
  constructor
  · have spliced : ∀ i ∈ line.code, ∀ cell, a.code[i]? = some cell → ∀ first count,
        cell.content = .pool first count → ∀ s, a.Plain s →
          a.walkPool first count s = some (a.planPool (first - 1) count s) ∧
            a.Plain (a.planPool (first - 1) count s).2 := by
      intro i member cell found first count content s kept
      have positive := pools cell (Array.mem_of_getElem? found) first count content
      exact ⟨walkPool_eq positive count kept, plain_planPool _ count kept⟩
    have walked := walkCells_eq ⟨line.text, some line.number⟩ a.Plain inRange spliced false
      (Nat.zero_le line.diagnostics.length) h
    rw [walkLine, walked]
    rfl
  · exact a.planCells_keeps _ _ a.Plain (fun first count _ => plain_planPool (first - 1) count)
      _ _ _ _ h

/-- The positions on the lines are positions in the code list. -/
def Covers (a : Assembly) (lines : List Line) : Prop :=
  ∀ line ∈ lines, ∀ i ∈ line.code, i < a.code.size

theorem walkLines_eq (pools : a.CountsFromOne) {source : List Line} (inRange : a.Covers source)
    {lines : Array Line} (h : a.Plain lines) :
    a.walkLines source lines = some (a.planLines source lines) := by
  induction source generalizing lines with
  | nil => rfl
  | cons line rest ih =>
    obtain ⟨walked, kept⟩ := walkLine_eq pools (inRange line (by simp)) h
    have later := ih (fun other member => inRange other (by simp [member])) kept
    simp [walkLines, planLines, walked, later]

end Walking

/-- The positions kept in a state are in range. -/
structure Indexed (a : Assembly) : Prop where
  current : ∀ i ∈ a.lineCode, i < a.code.size
  pools : a.CountsFromOne
  plain : a.Plain a.poolLines

theorem indexed_init (dialect : Dialect) : Indexed (init dialect) := by
  constructor
  · intro i member
    cases member
  · intro cell member
    simp [init] at member
  · intro line member
    simp [init] at member

/-- From `a` to `b` cells may be added, and positions stay in range. -/
structure Advances (a b : Assembly) : Prop where
  indexed : Indexed a → Indexed b
  code : a.code.size ≤ b.code.size

section Advancing

variable {a b c : Assembly}

theorem Advances.trans (h : Advances a b) (h' : Advances b c) : Advances a c :=
  ⟨fun start => h'.indexed (h.indexed start), Nat.le_trans h.code h'.code⟩

theorem advances_of_same (code : b.code = a.code) (lineCode : b.lineCode = a.lineCode)
    (poolLines : b.poolLines = a.poolLines) : Advances a b := by
  constructor
  · rintro ⟨current, pools, plain⟩
    constructor
    · rw [code, lineCode]
      exact current
    · rw [CountsFromOne, code]
      exact pools
    · rw [Plain, code, poolLines]
      exact plain
  · rw [code]

theorem Plain.append {lines : Array Line} (h : a.Plain lines) {cells : List Cell}
    (code : b.code = a.code ++ cells.toArray) : b.Plain lines := by
  intro line member i own
  obtain ⟨cell, found, plain⟩ := h line member i own
  have below : i < a.code.size := (Array.getElem?_eq_some_iff.mp found).1
  exact ⟨cell, by rw [code, Array.getElem?_append_left below, found], plain⟩

theorem Emits.advances {cells : List Cell} (h : Emits a cells b) : Advances a b := by
  have size : b.code.size = a.code.size + cells.length := by simp [h.code]
  constructor
  · rintro ⟨current, pools, plain⟩
    constructor
    · intro i member
      rw [h.lineCode] at member
      rcases List.mem_append.mp member with old | new
      · have := current i old
        omega
      · have := (List.mem_range'_1.mp new).2
        omega
    · intro cell member first count content
      rw [h.code] at member
      rcases Array.mem_append.mp member with old | new
      · exact pools cell old first count content
      · have plain := h.plain cell (List.mem_toArray.mp new)
        simp [Cell.isPool, content] at plain
    · rw [h.poolLines]
      exact plain.append h.code
  · omega

theorem Pools.advances {cells : List Cell} {lines : List Line} {cell : Cell}
    (h : Pools a cells lines cell b) : Advances a b := by
  have size : b.code.size = a.code.size + (cells.length + 1) := by simp [h.code]
  constructor
  · rintro ⟨current, pools, plain⟩
    constructor
    · intro i member
      rw [h.lineCode] at member
      rcases List.mem_append.mp member with old | new
      · have := current i old
        omega
      · have := List.mem_singleton.mp new
        omega
    · intro cell' member first count content
      rw [h.code] at member
      rcases Array.mem_append.mp member with old | new
      · exact pools cell' old first count content
      -- of the new cells only the last one is a pool, and it is numbered after the lines before it
      rcases List.mem_append.mp (List.mem_toArray.mp new) with literal | last
      · have plain := h.plain cell' literal
        simp [Cell.isPool, content] at plain
      · rw [List.mem_singleton.mp last, h.content] at content
        injection content with hfirst
        omega
    · intro line member i own
      rw [h.poolLines] at member
      rcases Array.mem_append.mp member with old | new
      · exact plain.append h.code line old i own
      · exact h.plain_literal (List.mem_toArray.mp new) own
  · omega

theorem advances_placePool (a : Assembly) : Advances a a.placePool := by
  by_cases waiting : a.symbols.hasWaiting = true
  · obtain ⟨cells, lines, cell, placed⟩ := pools_placePool waiting
    exact placed.advances
  · have same : a.placePool = a := by simp [placePool, waiting]
    rw [same]
    exact advances_of_same rfl rfl rfl

theorem advances_of_reads {p q : Position} (h : Reads placePool True True p q) :
    Advances p.2 q.2 := by
  induction h with
  | refl => exact advances_of_same rfl rfl rfl
  | tail _ move ih =>
    apply ih.trans
    rcases move.emits_or_pool with ⟨cells, added⟩ | placed
    · exact added.advances
    · rw [placed]
      exact advances_placePool _

theorem Covers.mono {lines : List Line} (h : a.Covers lines) (grown : a.code.size ≤ b.code.size) :
    b.Covers lines :=
  fun line member i position => Nat.lt_of_lt_of_le (h line member i position) grown

theorem covers_cons {line : Line} {rest : List Line} :
    a.Covers (line :: rest) ↔ a.Covers [line] ∧ a.Covers rest := by
  simp [Covers]

/-- A line takes over positions that are in range. -/
theorem indexed_fileInto (line : Line) (h : Indexed a) (own : a.Covers [line]) :
    Indexed (fileInto line a).2 ∧ a.Covers [(fileInto line a).1] := by
  refine ⟨⟨by simp [fileInto], h.pools, h.plain⟩, ?_⟩
  intro filed member i position
  rw [List.mem_singleton.mp member] at position
  rcases List.mem_append.mp position with old | new
  · exact own line (by simp) i old
  · exact h.current i new

/-- Reading adds cells only, and what it leaves on its lines is in range. -/
structure Files (a : Assembly) (r : List Line × Assembly) : Prop where
  indexed : Indexed r.2
  grown : a.code.size ≤ r.2.code.size
  covers : r.2.Covers r.1

theorem files_readLine {line : Line} (h : Indexed a) (own : a.Covers [line]) :
    Files a ([(readLine line a).1], (readLine line a).2) := by
  have numbered : Advances a { a with lineNumber := line.number } := advances_of_same rfl rfl rfl
  obtain ⟨c, moves⟩ := reads_readText line.text { a with lineNumber := line.number }
  have read := numbered.trans (advances_of_reads moves)
  simp only [readLine]
  generalize readText line.text { a with lineNumber := line.number } = r at read ⊢
  obtain ⟨kind, b⟩ := r
  have noted := read.trans (advances_of_reads (reads_noteIf (p := (c, b)) .refl
    (kind = .unclassified && b.diagnostics.isEmpty) (.notParsed line.text) rfl))
  obtain ⟨indexed, covers⟩ := indexed_fileInto { line with kind := kind } (noted.indexed h)
    (by simpa [Covers] using own.mono noted.code)
  exact ⟨indexed, noted.code, covers⟩

theorem files_readLines {lines : List Line} (h : Indexed a) (own : a.Covers lines) :
    Files a (readLines lines a) := by
  induction lines generalizing a with
  | nil => exact ⟨h, Nat.le_refl _, own⟩
  | cons line rest ih =>
    obtain ⟨first, unread⟩ := covers_cons.mp own
    obtain ⟨indexed, grown, covers⟩ := files_readLine h first
    simp only [readLines]
    generalize readLine line a = r at indexed grown covers ⊢
    obtain ⟨line', b⟩ := r
    simp only at indexed grown covers ⊢
    split
    · have placed := advances_placePool b
      obtain ⟨filed, last⟩ := indexed_fileInto line' (placed.indexed indexed)
        (covers.mono placed.code)
      exact ⟨filed, Nat.le_trans grown placed.code,
        covers_cons.mpr ⟨last, unread.mono (Nat.le_trans grown placed.code)⟩⟩
    · have later := ih indexed (unread.mono grown)
      exact ⟨later.indexed, Nat.le_trans grown later.grown,
        covers_cons.mpr ⟨covers.mono later.grown, later.covers⟩⟩

theorem files_passOne {source : Source} (h : Indexed a) (own : a.Covers source.lines) :
    Files a ((a.passOne source).1.lines, (a.passOne source).2) := by
  have restarted : Advances a { a with location := 0 } := advances_of_same rfl rfl rfl
  obtain ⟨indexed, grown, covers⟩ := files_readLines (restarted.indexed h) own
  exact ⟨⟨indexed.current, indexed.pools, indexed.plain⟩, grown, covers⟩

end Advancing

/-- One state and the sources that are worked on with it. -/
structure Desk where
  assembly : Assembly
  sources : List Source

namespace Desk

/-- A pass over one of the sources. A second pass is given its outputs. -/
inductive Request where
  | first (i : Nat)
  | second (i : Nat) (o : Outputs)

/-- A source keeps what the passes make of it. -/
def serve (d : Desk) : Request → Desk
  | .first i =>
    match d.sources[i]? with
    | none => d
    | some source =>
      let (source, a) := d.assembly.passOne source
      ⟨a, d.sources.set i source⟩
  | .second i o =>
    match d.sources[i]? with
    | none => d
    | some source =>
      let (_, source, a, _) := d.assembly.passTwo source o
      ⟨a, d.sources.set i source⟩

def after (d : Desk) (requests : List Request) : Desk := requests.foldl serve d

/-- A fresh state and the named texts. -/
def fresh (dialect : Dialect) (texts : List (String × String)) : Desk :=
  ⟨init dialect, texts.map fun entry => .ofText entry.1 entry.2⟩

/-- All positions kept on the desk are in range. -/
structure Ordered (d : Desk) : Prop where
  indexed : d.assembly.Indexed
  sources : ∀ source ∈ d.sources, d.assembly.Covers source.lines

theorem ordered_fresh (dialect : Dialect) (texts : List (String × String)) :
    (fresh dialect texts).Ordered := by
  refine ⟨indexed_init dialect, ?_⟩
  intro source member line inside i position
  obtain ⟨entry, -, rfl⟩ := List.mem_map.mp member
  rw [Source.code_ofText inside] at position
  cases position

/-- Replacing a source by one whose positions are in range. -/
theorem Ordered.replace {d : Desk} (h : d.Ordered) {a : Assembly} (indexed : a.Indexed)
    (grown : d.assembly.code.size ≤ a.code.size) {source : Source} (own : a.Covers source.lines)
    (i : Nat) : Ordered ⟨a, d.sources.set i source⟩ := by
  refine ⟨indexed, ?_⟩
  intro other member
  rcases List.mem_or_eq_of_mem_set member with old | rfl
  · exact (h.sources other old).mono grown
  · exact own

theorem Ordered.first {d : Desk} (h : d.Ordered) (i : Nat) : (d.serve (.first i)).Ordered := by
  simp only [serve]
  split
  · exact h
  · next source found =>
    have own := h.sources source (List.mem_of_getElem? found)
    obtain ⟨indexed, grown, covers⟩ := files_passOne h.indexed own
    exact h.replace indexed grown covers i

/-- Where the positions are the same, each line stands for one that has its positions. -/
theorem exists_of_map_code {lines lines' : List Line}
    (same : lines'.map Line.code = lines.map Line.code) {line : Line} (member : line ∈ lines') :
    ∃ line' ∈ lines, line'.code = line.code := by
  have inside : line.code ∈ lines.map Line.code := same ▸ List.mem_map_of_mem member
  exact List.mem_map.mp inside

theorem Ordered.second {d : Desk} (h : d.Ordered) (i : Nat) (o : Outputs) :
    (d.serve (.second i o)).Ordered := by
  simp only [serve]
  split
  · exact h
  · next source found =>
    have own := h.sources source (List.mem_of_getElem? found)
    obtain ⟨codes, left⟩ := d.assembly.passTwo_leaves source o
    have kept : d.assembly.Covers (d.assembly.passTwo source o).2.1.lines := by
      intro line member j position
      obtain ⟨line', inside, same⟩ := exists_of_map_code codes member
      exact own line' inside j (same ▸ position)
    -- a pass that stops at a line loses the pool lines, and then there is nothing to check
    rcases left with ⟨-, lines, changed, same⟩ | ⟨-, lost⟩
    · have plain : d.assembly.Plain lines := by
        intro line member j position
        have lists : lines.toList.map Line.code = d.assembly.poolLines.toList.map Line.code := by
          simpa using congrArg Array.toList same
        obtain ⟨line', inside, code⟩ := exists_of_map_code lists (Array.mem_toList_iff.mpr member)
        exact h.indexed.plain line' (Array.mem_toList_iff.mp inside) j (code ▸ position)
      rw [changed]
      exact h.replace (a := { d.assembly with poolLines := lines })
        ⟨h.indexed.current, h.indexed.pools, plain⟩ (Nat.le_refl _) kept i
    · have plain : d.assembly.Plain #[] := by
        intro line member
        simp at member
      rw [lost]
      exact h.replace (a := { d.assembly with poolLines := #[] })
        ⟨h.indexed.current, h.indexed.pools, plain⟩ (Nat.le_refl _) kept i

theorem Ordered.after {d : Desk} (h : d.Ordered) (requests : List Request) :
    (d.after requests).Ordered := by
  induction requests generalizing d with
  | nil => exact h
  | cons request rest ih =>
    apply ih
    cases request with
    | first i => exact h.first i
    | second i o => exact h.second i o

/-- Whatever passes have run over the sources, the positions kept on source lines and pool lines are
positions in the code list, no pool line has a pool cell, and pool cells count their lines from
one. A second pass over any of the sources makes no access that is out of range. -/
theorem positions_in_range (dialect : Dialect) (texts : List (String × String))
    (requests : List Request) :
    let d := (fresh dialect texts).after requests
    (∀ source ∈ d.sources, ∀ line ∈ source.lines, ∀ i ∈ line.code, i < d.assembly.code.size) ∧
    (∀ line ∈ d.assembly.poolLines, ∀ i ∈ line.code,
      ∃ cell, d.assembly.code[i]? = some cell ∧ cell.isPool = false) ∧
    (∀ cell ∈ d.assembly.code, ∀ first count, cell.content = .pool first count → 1 ≤ first) ∧
    ∀ source ∈ d.sources, d.assembly.walkLines source.lines d.assembly.poolLines =
      some (d.assembly.planLines source.lines d.assembly.poolLines) := by
  intro d
  have ordered : d.Ordered := (ordered_fresh dialect texts).after requests
  refine ⟨ordered.sources, ordered.indexed.plain, ordered.indexed.pools, ?_⟩
  intro source member
  exact walkLines_eq ordered.indexed.pools (ordered.sources source member) ordered.indexed.plain

end Desk

end Assembly

end Pds1
