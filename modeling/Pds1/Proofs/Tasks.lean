import Pds1.Proofs.CodeOrder
import Pds1.Proofs.Traces

/-!
# The course of a first pass

The tasks of a first pass are what it carries out on its way, each with the state it starts from:
assignments, directives, pools, and the literals of a pool. The states on the way form a path, and
everything that a path's steps keep holds at each task.
-/

namespace Pds1

/-- Something that the first pass carries out. -/
inductive Task where
  /-- Reading the operand of an assignment. -/
  | assign (c : Cursor) (a : Assembly)
  | direct (d : Directive) (c : Cursor) (a : Assembly)
  | pool (a : Assembly)
  /-- Assembling a literal in a pool. -/
  | literal (id : LiteralId) (a : Assembly)

/-- The state that a task starts from. -/
def Task.state : Task → Assembly
  | assign _ a | direct _ _ a | pool a | literal _ a => a

namespace Assembly

def orderTasks (c : Cursor) (a : Assembly) : List Task :=
  match orderDirective? a.dialect c with
  | none => []
  | some (d, e) => [.direct d e a]

/-- Labels are no tasks. -/
def tasks : Observer Task where
  order := orderTasks
  assign _ c a := [.assign c a]
  pool a := [.pool a]
  literal id a := [.literal id a]

def literalTasks (id : LiteralId) (a : Assembly) : List Task := literalTrace tasks id a

theorem literalTasks_eq (id : LiteralId) (a : Assembly) :
    literalTasks id a = .literal id a :: statementTrace (fun _ _ => []) orderTasks refusePool false
      (.ofText (a.symbols.literalText id)) { a with lineNumber := a.poolLines.size + 1 } := by
  simp [literalTasks, literalTrace, tasks]

/-- The tasks of a first pass, in order. -/
def passOneTasks (source : Source) (a : Assembly) : List Task := passOneTrace tasks source a

theorem emits_literalBody (id : LiteralId) (a : Assembly) :
    ∃ cells, Emits a cells (literalBody id a) := by
  obtain ⟨c, read⟩ := reads_literalBody id a
  obtain ⟨cells, added⟩ := emits_of_reads_refusePool read
  exact ⟨cells, added.plain, added.code, added.lineCode, added.poolLines⟩

/-- The states on the way from `a`, with the tasks carried out so far. -/
inductive Path (a : Assembly) : List Task → Assembly → Prop where
  | refl : Path a [] a
  | task {ts : List Task} (t : Task) (h : Path a ts t.state) : Path a (ts ++ [t]) t.state
  | move {ts : List Task} {p q : Position} (h : Path a ts p.2) (m : Move refusePool True True p q) :
      Path a ts q.2
  /-- Going to another line. -/
  | turn {ts : List Task} {b : Assembly} (h : Path a ts b) (number : Nat) (code : List Nat)
      (diagnostics : List Diagnostic) (log : Array Event) :
      Path a ts { b with
        lineNumber := number
        lineCode := code
        diagnostics := diagnostics
        log := log }
  | restart {ts : List Task} {b : Assembly} (h : Path a ts b) : Path a ts { b with location := 0 }
  /-- Giving a literal its address after assembling it. -/
  | place {ts : List Task} {id : LiteralId} {m : Assembly} (h : Path a ts (literalBody id m))
      (task : .literal id m ∈ ts) (next : m.symbols.nextWaiting? = some id)
      (fresh : m.lineCode = []) : Path a ts (placeLiteral id m)
  /-- Marking the place of a pool. -/
  | mark {ts : List Task} {b : Assembly} (h : Path a ts b) (first count : Nat) :
      Path a ts { b with code := b.code.push ⟨0, Int32.ofNat first, .pool first count⟩ }

namespace Path

variable {a b c : Assembly} {ts ts' : List Task}

theorem trans (h : Path a ts b) (h' : Path b ts' c) : Path a (ts ++ ts') c := by
  induction h' with
  | refl => simpa using h
  | task t _ ih =>
    rw [← List.append_assoc]
    exact .task t ih
  | move _ m ih => exact ih.move m
  | turn _ number code diagnostics log ih => exact ih.turn number code diagnostics log
  | restart _ ih => exact ih.restart
  | place _ task next fresh ih => exact ih.place (List.mem_append_right _ task) next fresh
  | mark _ first count ih => exact ih.mark first count

theorem reads (h : Path a ts b) {p q : Position} (start : p.2 = b)
    (read : Reads refusePool True True p q) : Path a ts q.2 := by
  induction read with
  | refl => exact start ▸ h
  | tail _ m ih => exact ih.move m

/-- The state of each task is on the path. -/
theorem before (h : Path a ts b) {t : Task} (member : t ∈ ts) :
    ∃ earlier, Path a earlier t.state := by
  induction h with
  | refl => simp at member
  | @task ts t' h' ih =>
    rcases List.mem_append.mp member with old | new
    · exact ih old
    · obtain rfl := List.mem_singleton.mp new
      exact ⟨ts, h'⟩
  | move _ _ ih | turn _ _ _ _ _ ih | restart _ ih | place _ _ _ _ ih | mark _ _ _ ih =>
    exact ih member

/-- Literals stay in order along a path, one for each pool line that is added. -/
theorem inOrder (h : Path a ts b) {k : Nat} (start : a.symbols.InOrder (k + a.poolLines.size)) :
    b.symbols.InOrder (k + b.poolLines.size) := by
  induction h with
  | refl => exact start
  | task _ _ ih => exact ih
  | @move _ p q _ m ih =>
    obtain ⟨texts, interned, -⟩ := m.pays
    obtain ⟨cells, added⟩ := emits_of_reads_refusePool (.single m)
    rw [added.poolLines]
    exact ih.interns interned
  | turn _ _ _ _ _ ih => exact ih
  | restart _ ih => exact ih
  | @place _ id m _ _ next _ ih =>
    have placed := ih.place (nextWaiting?_literalBody next) m.location
      (literalBody id m).relocatable
    simpa [placeLiteral_eq, Nat.add_assoc] using placed
  | mark _ _ _ ih => exact ih

/-- The literal assembled next is the oldest one without a pool line. -/
theorem front (h : Path a ts b) {k : Nat} (start : a.symbols.InOrder (k + a.poolLines.size))
    {id : LiteralId} {m : Assembly} (task : .literal id m ∈ ts)
    (next : m.symbols.nextWaiting? = some id) :
    id = k + m.poolLines.size ∧ id < m.symbols.literals.size := by
  obtain ⟨_, before⟩ := h.before task
  obtain ⟨rfl, inside⟩ : id = k + m.poolLines.size ∧ _ := (before.inOrder start).next next
  exact ⟨rfl, inside⟩

end Path

/-- From `a` a path with these tasks leads to `b`, if the literals are in order. -/
def Leads (k : Nat) (a : Assembly) (ts : List Task) (b : Assembly) : Prop :=
  a.symbols.InOrder (k + a.poolLines.size) → Path a ts b

section Paths

variable {k : Nat}

theorem path_orderTasks (c : Cursor) (a : Assembly) : Path a (orderTasks c a) a := by
  rw [orderTasks]
  split
  · exact .refl
  · exact Path.refl.task (.direct _ _ a)

theorem path_assign (c : Cursor) (a : Assembly) : Path a (assignTrace tasks c a) a := by
  simp only [assignTrace]
  split
  · exact .refl
  · split
    · exact .refl
    · exact Path.refl.task (.assign _ a)

theorem path_placeLiteral {id : LiteralId} {a : Assembly} {ts : List Task}
    (next : a.symbols.nextWaiting? = some id) (fresh : a.lineCode = [])
    (stated : Path { a with lineNumber := a.poolLines.size + 1 } ts (literalStatement id a).2) :
    Path a (.literal id a :: ts) (placeLiteral id a) := by
  have numbered : Path a [.literal id a] { a with lineNumber := a.poolLines.size + 1 } :=
    (Path.refl.task (.literal id a)).turn (a.poolLines.size + 1) a.lineCode a.diagnostics a.log
  have body : Path a (.literal id a :: ts) (literalBody id a) := by
    have stated := numbered.trans stated
    simp only [literalBody]
    split
    · exact (stated.move (.note (.ofList []) _ _ rfl)).move (.word (.ofList []) _ 0)
    · exact stated
  exact body.place (List.mem_cons_self ..) next fresh

theorem path_placePool {a : Assembly} {ts : List Task} (waiting : a.symbols.hasWaiting = true)
    (placed : Path { a with lineCode := [], diagnostics := [] } ts
      (placeLiterals { a with lineCode := [], diagnostics := [] })) : Path a ts a.placePool := by
  have cleared : Path a [] { a with lineCode := [], diagnostics := [] } :=
    Path.refl.turn a.lineNumber [] [] a.log
  have placed := cleared.trans placed
  rw [placePool, if_pos waiting]
  exact (placed.mark (a.poolLines.size + 1) _).turn a.lineNumber _ a.diagnostics _

theorem traces_tasks (k : Nat) : Traces tasks fun _ => Leads k where
  refl _ _ _ := .refl
  trans _ _ _ _ _ _ first later h := (first h).trans (later ((first h).inOrder h))
  note _ a d other _ := Path.refl.move (.note (.ofList []) a d other)
  comment _ a _ := Path.refl.move (.comment (.ofList []) a)
  labels _ c a _ := Path.refl.reads rfl (reads_readLabels trivial none c a)
  order _ c a _ := by
    have read : Reads refusePool True True (c, a) (order refusePool c a).2 :=
      reads_order c a fun _ _ _ _ => trivial
    exact (path_orderTasks c a).reads rfl read
  asks _ c a _ _ := path_orderTasks c a
  assign _ c a b found _ := by
    obtain ⟨c', read⟩ : ∃ c', Reads refusePool True True (c, a) (c', b) :=
      reads_definition trivial found
    exact (path_assign c a).reads rfl read
  asked _ a _ := Path.refl.task (.pool a)
  literal next fresh stated h := by
    simpa [tasks] using path_placeLiteral next fresh (stated h)
  pool _ waiting placed h := path_placePool waiting (placed h)

theorem leads_turn (a : Assembly) (number : Nat) (code : List Nat) (diagnostics : List Diagnostic)
    (log : Array Event) :
    Leads k a [] { a with
      lineNumber := number
      lineCode := code
      diagnostics := diagnostics
      log := log } :=
  fun _ => Path.refl.turn number code diagnostics log

theorem path_pool {a : Assembly} (h : a.symbols.InOrder (k + a.poolLines.size)) :
    Path a (poolTrace tasks a) a.placePool :=
  (traces_tasks k).placedPool none (by simp) a h

theorem path_readLine (line : Line) {a : Assembly}
    (h : a.symbols.InOrder (k + a.poolLines.size)) :
    Path a (textTrace tasks (.source line.number) line.text { a with lineNumber := line.number })
      (readLine line a).2 :=
  (traces_tasks k).line leads_turn line a h

/-- The first pass is a path with its tasks. -/
theorem path_passOne (source : Source) {a : Assembly}
    (h : a.symbols.InOrder (k + a.poolLines.size)) :
    Path a (passOneTasks source a) (a.passOne source).2 := by
  have restarted : Path a [] { a with location := 0 } := Path.refl.restart
  exact restarted.trans ((traces_tasks k).passOne leads_turn source a (restarted.inOrder h))

end Paths

end Assembly

end Pds1
