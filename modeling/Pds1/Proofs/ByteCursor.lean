import Pds1.Proofs.TextBytes

/-!
# A cursor that counts bytes

The same cursor with byte offsets into the UTF-8 text of the line for its place and its saved
places. What is still to be read is a slice of the line, and a slice can only be cut where a
character ends: every cut is checked, and a move that needs a cut elsewhere fails. From a place that
is a suffix of the line no move fails, and it goes where the cursor on characters goes.
-/

namespace Pds1

open Cursor (byteSize byteSize_eq byteSize_append)

/-- A cursor on bytes: its place and its saved places, latest first, are offsets into the line. -/
structure ByteCursor where
  line : String
  position : Nat
  saved : List Nat
  deriving DecidableEq

namespace ByteCursor

def ofText (line : String) : ByteCursor := ⟨line, 0, []⟩

/-- What is still to be read. -/
def rest? (b : ByteCursor) : Option String := slice? b.line b.position b.line.utf8ByteSize

/-- The next character, if there is one. -/
def next? (b : ByteCursor) : Option (Option Char) := b.rest?.map (·.toList.head?)

/-- Moves over the bytes of a character. -/
def pass (b : ByteCursor) (x : Char) : ByteCursor := { b with position := b.position + x.utf8Size }

theorem position_lt_of_next? {b : ByteCursor} {x : Char} (h : b.next? = some (some x)) :
    b.position < b.line.utf8ByteSize := by
  obtain ⟨rest, cut, first⟩ := Option.map_eq_some_iff.mp h
  have size := utf8ByteSize_of_slice? cut
  have nonempty : rest ≠ "" := by
    rintro rfl
    cases first
  have positive : rest.utf8ByteSize ≠ 0 := by simpa using nonempty
  omega

/-- Moves over one character and hands it back. -/
def step? (b : ByteCursor) : Option (Option Char × ByteCursor) := do
  match ← b.next? with
  | none => return (none, b)
  | some x => return (some x, b.pass x)

/-- Moves over `x` if it comes next, and tells. -/
def skip? (x : Char) (b : ByteCursor) : Option (Bool × ByteCursor) := do
  let next ← b.next?
  if next = some x then return (true, b.pass x) else return (false, b)

/-- Moves over `n` characters, one by one. -/
def drop? : Nat → ByteCursor → Option ByteCursor
  | 0, b => some b
  | n + 1, b => do
    match ← b.next? with
    | none => return b
    | some x => drop? n (b.pass x)

/-- Moves on as long as the characters are in `p`. -/
def passWhile? (p : Char → Bool) (b : ByteCursor) : Option ByteCursor :=
  match _h : b.next? with
  | none => none
  | some none => some b
  | some (some x) => if p x then passWhile? p (b.pass x) else some b
termination_by b.line.utf8ByteSize - b.position
decreasing_by
  have inside := position_lt_of_next? _h
  have size := x.utf8Size_pos
  simp only [pass]
  omega

theorem passWhile?_of_end {b : ByteCursor} (h : b.next? = some none) (p : Char → Bool) :
    b.passWhile? p = some b := by
  rw [passWhile?]
  split
  · next none => cases none.symm.trans h
  · rfl
  · next some => cases some.symm.trans h

theorem passWhile?_of_next? {b : ByteCursor} {x : Char} (h : b.next? = some (some x))
    (p : Char → Bool) : b.passWhile? p = if p x then (b.pass x).passWhile? p else some b := by
  rw [passWhile?]
  split
  · next none => cases none.symm.trans h
  · next none => cases none.symm.trans h
  · next some =>
    cases some.symm.trans h
    rfl

/-- The same, with the text that was passed. -/
def takeWhile? (p : Char → Bool) (b : ByteCursor) : Option (String × ByteCursor) := do
  let e ← b.passWhile? p
  let text ← slice? b.line b.position e.position
  return (text, e)

def save (b : ByteCursor) : ByteCursor := { b with saved := b.position :: b.saved }

/-- Drops the latest saved place. Unless `stay` is set the cursor goes back to it, or to the start
of the line when no place is saved. -/
def release (b : ByteCursor) (stay : Bool) : ByteCursor :=
  match b.saved with
  | place :: places =>
    { b with position := if stay then b.position else place, saved := places }
  | [] => { b with position := if stay then b.position else 0 }

def restart (b : ByteCursor) : ByteCursor := ofText b.line

end ByteCursor

namespace Cursor

/-- The place and the saved places are suffixes of the line. -/
structure OnLine (c : Cursor) : Prop where
  rest : c.rest <:+ c.line
  saved : ∀ place ∈ c.saved, place <:+ c.line

/-- The same cursor in bytes. -/
def inBytes (c : Cursor) : ByteCursor :=
  ⟨String.ofList c.line, c.position, c.saved.map fun place => byteSize c.line - byteSize place⟩

theorem onLine_ofText (line : String) : (ofText line).OnLine :=
  ⟨List.suffix_refl _, by simp [ofText, ofList]⟩

theorem inBytes_ofText (line : String) : (ofText line).inBytes = .ofText line := by
  simp [inBytes, ofText, ofList, ByteCursor.ofText, position]

variable {c : Cursor}

theorem OnLine.moveTo (h : c.OnLine) {r : List Char} (shorter : r <:+ c.rest) :
    (c.moveTo r).OnLine := ⟨shorter.trans h.rest, h.saved⟩

theorem OnLine.save (h : c.OnLine) : c.save.OnLine :=
  ⟨h.rest, List.forall_mem_cons.mpr ⟨h.rest, h.saved⟩⟩

theorem OnLine.release (h : c.OnLine) (stay : Bool) : (c.release stay).OnLine := by
  obtain ⟨line, rest, saved⟩ := c
  cases saved with
  | nil =>
    cases stay with
    | true => exact h
    | false => exact ⟨List.suffix_refl _, h.saved⟩
  | cons place places =>
    obtain ⟨first, later⟩ := List.forall_mem_cons.mp h.saved
    cases stay with
    | true => exact ⟨h.rest, later⟩
    | false => exact ⟨first, later⟩

/-- A suffix of the line begins at the end of a character. -/
theorem isValid_of_suffix {line place : List Char} (h : place <:+ line) :
    String.Pos.Raw.IsValid (String.ofList line) ⟨byteSize line - byteSize place⟩ := by
  obtain ⟨before, rfl⟩ := h
  rw [byteSize_append, Nat.add_sub_cancel]
  exact isValid_byteSize before place

theorem position_eq {before : List Char} (parts : before ++ c.rest = c.line) :
    c.position = byteSize before := by
  rw [position, ← parts, byteSize_append, Nat.add_sub_cancel]

theorem OnLine.rest?_inBytes (h : c.OnLine) : c.inBytes.rest? = some (String.ofList c.rest) := by
  obtain ⟨before, parts⟩ := h.rest
  have cut := slice?_parts before c.rest []
  rw [List.append_nil, parts, ← byteSize_append, parts] at cut
  rw [ByteCursor.rest?, inBytes, position_eq parts, ← byteSize_eq]
  exact cut

theorem OnLine.next?_inBytes (h : c.OnLine) : c.inBytes.next? = some c.next? := by
  rw [ByteCursor.next?, h.rest?_inBytes, Option.map_some, String.toList_ofList]
  rfl

/-- Moving over the bytes of the next character is moving over it. -/
theorem OnLine.pass_inBytes (h : c.OnLine) {x : Char} {r : List Char} (rest : c.rest = x :: r) :
    c.inBytes.pass x = (c.moveTo r).inBytes := by
  have inside := byteSize_le_of_suffix h.rest
  have size : byteSize c.rest = x.utf8Size + byteSize r := by
    rw [rest]
    rfl
  have place : c.position + x.utf8Size = (c.moveTo r).position := by
    show byteSize c.line - byteSize c.rest + x.utf8Size = byteSize c.line - byteSize r
    omega
  rw [ByteCursor.pass, inBytes, inBytes, ← place]
  rfl

theorem drop_of_end (rest : c.rest = []) (n : Nat) : c.drop n = c := by
  rw [drop, rest, List.drop_nil, ← rest]
  rfl

theorem OnLine.step?_inBytes (h : c.OnLine) :
    c.inBytes.step? = some (c.next?, c.step.inBytes) := by
  rw [ByteCursor.step?, h.next?_inBytes]
  cases rest : c.rest with
  | nil => simp [next?, rest, step, drop_of_end rest]
  | cons x r =>
    have moved : c.step = c.moveTo r := by rw [step, drop, rest, List.drop_one, List.tail_cons]
    simp [next?, rest, moved, h.pass_inBytes rest]

theorem OnLine.skip?_inBytes (h : c.OnLine) (x : Char) :
    c.inBytes.skip? x = some ((c.accept? x).isSome, (c.skip x).inBytes) := by
  rw [ByteCursor.skip?, h.next?_inBytes]
  by_cases first : c.next? = some x
  · obtain ⟨r, rest⟩ := List.head?_eq_some_iff.mp first
    have moved : c.accept? x = some (c.moveTo r) := accept?_eq_some_iff.mpr ⟨r, rest, rfl⟩
    simp [first, skip, moved, h.pass_inBytes rest]
  · simp [first, skip, accept?]

theorem OnLine.drop?_inBytes (h : c.OnLine) (n : Nat) :
    c.inBytes.drop? n = some (c.drop n).inBytes := by
  induction n generalizing c with
  | zero => rfl
  | succ n ih =>
    rw [ByteCursor.drop?, h.next?_inBytes]
    cases rest : c.rest with
    | nil => simp [next?, rest, drop_of_end rest]
    | cons x r =>
      have moved : c.drop (n + 1) = (c.moveTo r).drop n := by
        rw [drop, rest, List.drop_succ_cons]
        rfl
      have shorter : r <:+ c.rest := rest ▸ List.suffix_cons x r
      simp [next?, rest, moved, h.pass_inBytes rest, ih (h.moveTo shorter)]

theorem OnLine.passWhile?_inBytes (h : c.OnLine) (p : Char → Bool) :
    c.inBytes.passWhile? p = some (c.dropWhile p).inBytes := by
  have next := h.next?_inBytes
  rw [next?] at next
  induction rest : c.rest generalizing c with
  | nil =>
    rw [rest] at next
    have stays : c.dropWhile p = c := by
      rw [dropWhile, rest, List.dropWhile_nil, ← rest]
      rfl
    rw [stays, ByteCursor.passWhile?_of_end next]
  | cons x r ih =>
    rw [rest] at next
    have later : (c.moveTo r).OnLine := h.moveTo (rest ▸ List.suffix_cons x r)
    rw [ByteCursor.passWhile?_of_next? next, h.pass_inBytes rest, ih later later.next?_inBytes rfl]
    cases inside : p x with
    | true =>
      have moved : c.dropWhile p = (c.moveTo r).dropWhile p := by
        rw [dropWhile, rest, List.dropWhile_cons_of_pos inside]
        rfl
      rw [moved, if_pos rfl]
    | false =>
      have stays : c.dropWhile p = c := by
        rw [dropWhile, rest, List.dropWhile_cons_of_neg (by simp [inside]), ← rest]
        rfl
      rw [stays, if_neg Bool.false_ne_true]

theorem OnLine.takeWhile?_inBytes (h : c.OnLine) (p : Char → Bool) :
    c.inBytes.takeWhile? p = some (String.ofList (c.run p), (c.dropWhile p).inBytes) := by
  obtain ⟨before, parts⟩ := h.rest
  have whole : c.run p ++ (c.dropWhile p).rest = c.rest := List.takeWhile_append_dropWhile
  have behind : (before ++ c.run p) ++ (c.dropWhile p).rest = (c.dropWhile p).line := by
    rw [List.append_assoc, whole]
    exact parts
  have cut := slice?_parts before (c.run p) (c.dropWhile p).rest
  rw [whole, parts, ← byteSize_append, ← position_eq behind, ← position_eq parts] at cut
  have taken : slice? c.inBytes.line c.inBytes.position (c.dropWhile p).inBytes.position =
    some (String.ofList (c.run p)) := cut
  simp [ByteCursor.takeWhile?, h.passWhile?_inBytes, taken]

theorem save_inBytes (c : Cursor) : c.inBytes.save = c.save.inBytes := rfl

theorem release_inBytes (c : Cursor) (stay : Bool) :
    c.inBytes.release stay = (c.release stay).inBytes := by
  obtain ⟨line, rest, saved⟩ := c
  cases saved with
  | nil =>
    cases stay with
    | true => rfl
    | false => simp [inBytes, ByteCursor.release, release, position]
  | cons place places => cases stay <;> rfl

theorem restart_inBytes (c : Cursor) : c.inBytes.restart = c.restart.inBytes := by
  simp [inBytes, ByteCursor.restart, restart, ByteCursor.ofText, ofList, position]

theorem OnLine.dropWhile (h : c.OnLine) (p : Char → Bool) : (c.dropWhile p).OnLine :=
  h.moveTo (c.dropWhile_suffix p)

theorem along_skip (c : Cursor) (x : Char) : (c.skip x).along c = c.skip x :=
  (skip_along c c x).symm

theorem OnLine.skip (h : c.OnLine) (x : Char) : (c.skip x).OnLine := by
  rw [← along_skip]
  exact h.moveTo (c.skip_suffix x)

end Cursor

end Pds1
