import Pds1.Proofs.ByteReaders

/-!
# Places are ends of characters

Whatever is done with a cursor on bytes, in whatever order, on any line: no cut is refused, the
answers are those of the cursor on characters, and the place and all saved places are offsets within
the line at which a character ends.
-/

namespace Pds1

open Cursor (byteSize_eq)

/-- What can be done with a cursor. -/
inductive Action where
  | step
  | skip (x : Char)
  | drop (n : Nat)
  | takeWhile (p : Char → Bool)
  | blanks
  | save
  | release (stay : Bool)
  | restart
  | number (dialect : Dialect)
  | name (dialect : Dialect) (inOperand : Bool)
  | mnemonic (display : Bool)
  | vector
  | literal

/-- What is handed back. -/
inductive Answer where
  | done
  | character (x : Option Char)
  | flag (b : Bool)
  | text (s : String)
  | number (n : Option Int32)
  | name (s : Option String)
  | mnemonic (m : Option Mnemonic)
  | vector (byte : Option UInt8)
  | literal (s : Option String)
  deriving DecidableEq

/-- Does one thing, with cuts that are checked. -/
def ByteCursor.act? (b : ByteCursor) : Action → Option (Answer × ByteCursor)
  | .step => b.step?.map (Prod.map .character id)
  | .skip x => (b.skip? x).map (Prod.map .flag id)
  | .drop n => (b.drop? n).map (Prod.mk .done)
  | .takeWhile p => (b.takeWhile? p).map (Prod.map .text id)
  | .blanks => (b.takeWhile? Cursor.isBlank).map (Prod.map (fun s => .flag (s != "")) id)
  | .save => some (.done, b.save)
  | .release stay => some (.done, b.release stay)
  | .restart => some (.done, b.restart)
  | .number dialect => (b.number? dialect).map (Prod.map .number id)
  | .name dialect inOperand => (b.name? dialect inOperand).map (Prod.map .name id)
  | .mnemonic display => (b.mnemonic? display).map (Prod.map .mnemonic id)
  | .vector => b.vector?.map (Prod.map .vector id)
  | .literal => b.literal?.map (Prod.map .literal id)

/-- Does one thing after another, and fails if a cut is refused. -/
def ByteCursor.actAll? : List Action → ByteCursor → Option (List Answer × ByteCursor)
  | [], b => some ([], b)
  | a :: as, b => do
    let (answer, d) ← b.act? a
    let (answers, e) ← actAll? as d
    return (answer :: answers, e)

namespace Cursor

/-- The same on characters. -/
def act (c : Cursor) : Action → Answer × Cursor
  | .step => (.character c.next?, c.step)
  | .skip x => (.flag (c.accept? x).isSome, c.skip x)
  | .drop n => (.done, c.drop n)
  | .takeWhile p => (.text (String.ofList (c.run p)), c.dropWhile p)
  | .blanks => (.flag c.onBlank, c.dropBlanks)
  | .save => (.done, c.save)
  | .release stay => (.done, c.release stay)
  | .restart => (.done, c.restart)
  | .number dialect => Prod.map .number id (c.after (Number.read? dialect c))
  | .name dialect inOperand => Prod.map .name id (c.after (Name.read? dialect inOperand c))
  | .mnemonic display => Prod.map .mnemonic id (c.after (Mnemonic.read? display c))
  | .vector => Prod.map .vector id
      (c.after ((Increment.vector? c.rest).map fun s => (s.1, c.moveTo s.2)))
  | .literal => Prod.map .literal id
      (c.after ((Operand.closing? 0 c.rest).map fun s =>
        (String.ofList (Operand.dropComma s.1), c.moveTo s.2)))

def actAll : List Action → Cursor → List Answer × Cursor
  | [], c => ([], c)
  | a :: as, c =>
    let (answer, d) := c.act a
    let (answers, e) := actAll as d
    (answer :: answers, e)

variable {c : Cursor}

/-- A run of blanks is passed if a blank comes next. -/
theorem onBlank_eq (c : Cursor) : (String.ofList (c.run isBlank) != "") = c.onBlank := by
  rw [run, onBlank, next?]
  cases c.rest with
  | nil => rfl
  | cons x r => cases blank : isBlank x <;> simp [blank, bne]

theorem OnLine.act?_inBytes (h : c.OnLine) (a : Action) :
    c.inBytes.act? a = some (paired (c.act a)) := by
  cases a with
  | step => simp [ByteCursor.act?, act, h.step?_inBytes, paired]
  | skip x => simp [ByteCursor.act?, act, h.skip?_inBytes, paired]
  | drop n => simp [ByteCursor.act?, act, h.drop?_inBytes, paired]
  | takeWhile p => simp [ByteCursor.act?, act, h.takeWhile?_inBytes, paired]
  | blanks => simp [ByteCursor.act?, act, h.takeWhile?_inBytes, paired, ← onBlank_eq, dropBlanks]
  | save => rfl
  | release stay => simp [ByteCursor.act?, act, release_inBytes, paired]
  | restart => simp [ByteCursor.act?, act, restart_inBytes, paired]
  | number dialect => simp [ByteCursor.act?, act, h.number?_inBytes, paired]
  | name dialect inOperand => simp [ByteCursor.act?, act, h.name?_inBytes, paired]
  | mnemonic display => simp [ByteCursor.act?, act, h.mnemonic?_inBytes, paired]
  | vector => simp [ByteCursor.act?, act, h.vector?_inBytes, paired]
  | literal => simp [ByteCursor.act?, act, h.literal?_inBytes, paired]

/-- The cursor is on its line, and the line is still `line`. -/
def Keeps (line : List Char) (d : Cursor) : Prop := d.OnLine ∧ d.line = line

/-- A reader that stays on the line leaves the cursor on it. -/
theorem OnLine.after {α : Type} (h : c.OnLine) {o : Option (α × Cursor)}
    (stays : ∀ a d, o = some (a, d) → d.along c = d ∧ d.rest <:+ c.rest) :
    Keeps c.line (c.after o).2 := by
  cases o with
  | none => exact ⟨h, rfl⟩
  | some s =>
    obtain ⟨same, shorter⟩ := stays s.1 s.2 rfl
    show Keeps c.line s.2
    rw [← same]
    exact ⟨h.moveTo shorter, rfl⟩

/-- A reader that reads the same along its own line stays on it. -/
theorem along_of_map {α : Type} {o : Option (α × Cursor)} {a : α} {d : Cursor}
    (same : o = o.map fun p => (p.1, p.2.along c)) (read : o = some (a, d)) : d.along c = d := by
  rw [read] at same
  exact (Prod.mk.inj (Option.some.inj same)).2.symm

theorem line_release (c : Cursor) (stay : Bool) : (c.release stay).line = c.line := by
  obtain ⟨line, rest, saved⟩ := c
  cases saved <;> rfl

theorem OnLine.act (h : c.OnLine) (a : Action) : Keeps c.line (c.act a).2 := by
  cases a with
  | step => exact ⟨h.moveTo c.step_suffix, rfl⟩
  | skip x =>
    have same : ((c.skip x).along c).line = (c.skip x).line :=
      congrArg Cursor.line (along_skip c x)
    exact ⟨h.skip x, same.symm⟩
  | drop n => exact ⟨h.moveTo (c.drop_suffix n), rfl⟩
  | takeWhile p => exact ⟨h.dropWhile p, rfl⟩
  | blanks => exact ⟨h.dropWhile isBlank, rfl⟩
  | save => exact ⟨h.save, rfl⟩
  | release stay => exact ⟨h.release stay, line_release c stay⟩
  | restart => exact ⟨⟨List.suffix_refl _, List.forall_mem_nil _⟩, rfl⟩
  | number dialect =>
    refine h.after fun n d read => ⟨?_, Number.read?_suffix read⟩
    exact along_of_map (Number.read?_along dialect c c) read
  | name dialect inOperand =>
    exact h.after fun s d read => ⟨Name.along_of_read? read, Name.read?_suffix read⟩
  | mnemonic display =>
    refine h.after fun m d read => ⟨?_, Mnemonic.read?_suffix read⟩
    exact along_of_map (Mnemonic.read?_along display c c) read
  | vector =>
    refine h.after fun byte d read => ?_
    obtain ⟨s, found, same⟩ := Option.map_eq_some_iff.mp read
    cases same
    exact ⟨rfl, Increment.vector?_suffix found⟩
  | literal =>
    refine h.after fun text d read => ?_
    obtain ⟨s, found, same⟩ := Option.map_eq_some_iff.mp read
    cases same
    exact ⟨rfl, Operand.closing?_suffix found⟩

/-- Each thing done keeps the cursor on its line, so the next one is done in bytes as well. -/
theorem OnLine.actAll (h : c.OnLine) (as : List Action) :
    Keeps c.line (c.actAll as).2 ∧ c.inBytes.actAll? as = some (paired (c.actAll as)) := by
  induction as generalizing c with
  | nil => exact ⟨⟨h, rfl⟩, rfl⟩
  | cons a as ih =>
    -- the rest of the run starts from a cursor that is on its line again
    obtain ⟨onLine, line⟩ := h.act a
    obtain ⟨⟨onLine', line'⟩, agrees⟩ := ih onLine
    refine ⟨⟨onLine', line'.trans line⟩, ?_⟩
    have later : (paired (c.act a)).2.actAll? as = some (paired ((c.act a).2.actAll as)) := agrees
    rw [ByteCursor.actAll?, h.act?_inBytes]
    simp only [Option.bind_eq_bind, Option.bind_some, later]
    rfl

/-- The place and the saved places, in bytes, are within the line and at ends of characters. -/
theorem OnLine.isValid (h : c.OnLine) {place : Nat}
    (member : place ∈ c.inBytes.position :: c.inBytes.saved) :
    place ≤ c.inBytes.line.utf8ByteSize ∧ String.Pos.Raw.IsValid c.inBytes.line ⟨place⟩ := by
  have suffix : ∃ rest, rest <:+ c.line ∧ place = byteSize c.line - byteSize rest := by
    rcases List.mem_cons.mp member with rfl | saved
    · exact ⟨c.rest, h.rest, rfl⟩
    · obtain ⟨rest, stored, same⟩ := List.mem_map.mp saved
      exact ⟨rest, h.saved rest stored, same.symm⟩
  obtain ⟨rest, onLine, rfl⟩ := suffix
  refine ⟨?_, isValid_of_suffix onLine⟩
  have whole : c.inBytes.line.utf8ByteSize = byteSize c.line := (byteSize_eq c.line).symm
  rw [whole]
  exact Nat.sub_le _ _

end Cursor

/-- On any line, and whatever is done in whatever order, the cursor on bytes and the cursor on
characters give the same answers and come to the same place. What is still to be read is a suffix of
the line, and the place and the saved places are ends of characters within it. -/
theorem ByteCursor.places_end_characters (line : String) (actions : List Action) :
    ∃ (answers : List Answer) (c : Cursor) (before : String),
      (Cursor.ofText line).actAll actions = (answers, c) ∧
      (ofText line).actAll? actions = some (answers, c.inBytes) ∧
      c.inBytes.line = line ∧ c.inBytes.rest? = some (String.ofList c.rest) ∧
      line = before ++ String.ofList c.rest ∧ c.inBytes.position = before.utf8ByteSize ∧
      ∀ place ∈ c.inBytes.position :: c.inBytes.saved,
        place ≤ line.utf8ByteSize ∧ String.Pos.Raw.IsValid line ⟨place⟩ := by
  obtain ⟨⟨onLine, same⟩, agrees⟩ := (Cursor.onLine_ofText line).actAll actions
  rw [Cursor.inBytes_ofText] at agrees
  generalize run : (Cursor.ofText line).actAll actions = reached at onLine same agrees
  obtain ⟨answers, c⟩ := reached
  obtain ⟨before, parts⟩ := onLine.rest
  have text : String.ofList c.line = line := by
    rw [same]
    exact String.ofList_toList
  have whole : line = String.ofList before ++ String.ofList c.rest := by
    rw [← String.ofList_append, parts, text]
  refine ⟨answers, c, String.ofList before, rfl, agrees, text, onLine.rest?_inBytes, whole, ?_, ?_⟩
  · rw [← byteSize_eq]
    exact Cursor.position_eq parts
  · intro place member
    have valid := onLine.isValid member
    rw [show c.inBytes.line = line from text] at valid
    exact valid

end Pds1
