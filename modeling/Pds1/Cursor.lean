/-!
# Reading position in a line

A cursor stands before a suffix of its line. Saved places are suffixes too, so the position in
bytes is always a character boundary. Moving is done by replacing `rest`; going back needs no
undo, since the earlier cursor is still at hand.
-/

namespace Pds1

structure Cursor where
  line : List Char
  /-- What is still to be read. -/
  rest : List Char
  /-- Saved suffixes, latest first. -/
  saved : List (List Char)
  deriving DecidableEq

namespace Cursor

/-- Stands for the character after the last one. -/
def endOfLine : Char := '\uffff'

def ofList (line : List Char) : Cursor := ⟨line, line, []⟩

def ofText (text : String) : Cursor := ofList text.toList

/-- Length of a text in UTF-8. -/
def byteSize (cs : List Char) : Nat := cs.foldr (fun c n => c.utf8Size + n) 0

/-- Byte offset of the cursor in its line. -/
def position (c : Cursor) : Nat := byteSize c.line - byteSize c.rest

def atStart (c : Cursor) : Bool := c.position == 0

def atEnd (c : Cursor) : Bool := c.rest.isEmpty

def next? (c : Cursor) : Option Char := c.rest.head?

def current (c : Cursor) : Char := c.next?.getD endOfLine

def lookahead (c : Cursor) : Char := c.rest.tail.head?.getD endOfLine

/-- The same line, read on from `rest`. -/
def moveTo (c : Cursor) (rest : List Char) : Cursor := { c with rest := rest }

/-- Moves over `n` characters, or to the end if fewer are left. -/
def drop (c : Cursor) (n : Nat) : Cursor := c.moveTo (c.rest.drop n)

def step (c : Cursor) : Cursor := c.drop 1

/-- Moves over `x` if it comes next. -/
def accept? (c : Cursor) (x : Char) : Option Cursor :=
  if c.next? = some x then some c.step else none

/-- Moves over `x` if it comes next and stays otherwise. -/
def skip (c : Cursor) (x : Char) : Cursor := (c.accept? x).getD c

/-- The longest run of characters in `p` at the cursor. -/
def run (c : Cursor) (p : Char → Bool) : List Char := c.rest.takeWhile p

def dropWhile (c : Cursor) (p : Char → Bool) : Cursor := c.moveTo (c.rest.dropWhile p)

def isBlank (x : Char) : Bool := x = ' ' || x = '\t'

def onBlank (c : Cursor) : Bool := c.next?.any isBlank

def dropBlanks (c : Cursor) : Cursor := c.dropWhile isBlank

/-- Whether a blank comes next and then something else. -/
def operandFollows (c : Cursor) : Bool := c.onBlank && !c.dropBlanks.atEnd

def save (c : Cursor) : Cursor := { c with saved := c.rest :: c.saved }

/-- Drops the latest saved place. Unless `stay` is set the cursor goes back to it, or to the start
of the line when no place is saved. -/
def release (c : Cursor) (stay : Bool) : Cursor :=
  match c.saved with
  | place :: places => { c with rest := if stay then c.rest else place, saved := places }
  | [] => { c with rest := if stay then c.rest else c.line }

def restart (c : Cursor) : Cursor := ofList c.line

@[simp] theorem rest_moveTo (c : Cursor) (r : List Char) : (c.moveTo r).rest = r := rfl

theorem drop_suffix (c : Cursor) (n : Nat) : (c.drop n).rest <:+ c.rest :=
  List.drop_suffix n c.rest

theorem step_suffix (c : Cursor) : c.step.rest <:+ c.rest := c.drop_suffix 1

theorem dropWhile_suffix (c : Cursor) (p : Char → Bool) : (c.dropWhile p).rest <:+ c.rest :=
  List.dropWhile_suffix p

theorem dropBlanks_suffix (c : Cursor) : c.dropBlanks.rest <:+ c.rest := c.dropWhile_suffix isBlank

theorem accept?_suffix {c d : Cursor} {x : Char} (h : c.accept? x = some d) :
    d.rest <:+ c.rest := by
  rw [accept?] at h
  split at h
  · cases h
    exact c.step_suffix
  · cases h

theorem accept?_length_lt {c d : Cursor} {x : Char} (h : c.accept? x = some d) :
    d.rest.length < c.rest.length := by
  rw [accept?] at h
  split at h
  · next hx =>
    cases h
    cases hr : c.rest with
    | nil => simp [next?, hr] at hx
    | cons y r => simp [step, drop, moveTo, hr]
  · cases h

theorem skip_suffix (c : Cursor) (x : Char) : (c.skip x).rest <:+ c.rest := by
  rw [skip]
  cases h : c.accept? x with
  | none => exact List.suffix_refl _
  | some d => exact accept?_suffix h

end Cursor

end Pds1
