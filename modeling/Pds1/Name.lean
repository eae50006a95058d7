import Pds1.Cursor
import Pds1.Dialect
import Pds1.Number

/-!
# Label names

Each dialect has its own grammar for a name. In the defining position a name must stand in column
one, or, in the Midas dialect, be closed by one or two colons.
-/

namespace Pds1.Name

/-- A capital letter and at most one octal digit. -/
def imlacName : List Char → List Char
  | x :: y :: _ => if x.isUpper then (if Number.isOctalDigit y then [x, y] else [x]) else []
  | [x] => if x.isUpper then [x] else []
  | [] => []

def isAmesStart (c : Char) : Bool := c.isAlpha || c = '$' || c = '_'

def isAmesChar (c : Char) : Bool := c.isAlphanum || c = '$' || c = '_'

/-- A letter, `$` or `_`, and then as many of these and digits as follow. -/
def amesName (cs : List Char) : List Char :=
  if cs.head?.any isAmesStart then cs.takeWhile isAmesChar else []

def isMidasChar (c : Char) : Bool := c.isAlphanum || c = '$' || c = '%' || c = '.'

def isMidasLetter (c : Char) : Bool := c.isAlpha || c = '$' || c = '%'

/-- A run of letters, digits, `$`, `%` and points that is not a number: it has something other than
digits and one point. -/
def midasName (cs : List Char) : List Char :=
  let name := cs.takeWhile isMidasChar
  if name.any isMidasLetter || 2 ≤ name.count '.' then name else []

/-- Takes `name` from the cursor; the empty name is none. -/
def take? (name : List Char) (c : Cursor) : Option (String × Cursor) :=
  if name.isEmpty then none else some (String.ofList name, c.drop name.length)

/-- Moves over the one or two colons that end a definition. -/
def colons? (c : Cursor) : Option Cursor := (c.accept? ':').map (·.skip ':')

/-- Reads a name at the cursor, in an operand or in the defining position. -/
def read? (dialect : Dialect) (inOperand : Bool) (c : Cursor) : Option (String × Cursor) :=
  match dialect with
  | .midas =>
    match take? (midasName c.dropBlanks.rest) c.dropBlanks with
    | none => none
    | some (name, d) =>
      if inOperand then some (name, d) else (colons? d).map fun e => (name, e)
  | .imlac => if inOperand || c.atStart then take? (imlacName c.rest) c else none
  | _ => if inOperand || c.atStart then take? (amesName c.rest) c else none

theorem take?_suffix {name : List Char} {c d : Cursor} {s : String}
    (h : take? name c = some (s, d)) : d.rest <:+ c.rest := by
  rw [take?] at h
  split at h
  · cases h
  · cases h
    exact c.drop_suffix _

theorem colons?_suffix {c d : Cursor} (h : colons? c = some d) : d.rest <:+ c.rest := by
  rw [colons?] at h
  cases he : c.accept? ':' with
  | none => simp [he] at h
  | some e =>
    simp only [he, Option.map_some, Option.some.injEq] at h
    subst h
    exact (e.skip_suffix ':').trans (Cursor.accept?_suffix he)

theorem colons?_length_lt {c d : Cursor} (h : colons? c = some d) :
    d.rest.length < c.rest.length := by
  rw [colons?] at h
  cases he : c.accept? ':' with
  | none => simp [he] at h
  | some e =>
    simp only [he, Option.map_some, Option.some.injEq] at h
    subst h
    have h1 := (e.skip_suffix ':').length_le
    have h2 := Cursor.accept?_length_lt he
    omega

theorem read?_suffix {dialect : Dialect} {inOperand : Bool} {c d : Cursor} {s : String}
    (h : read? dialect inOperand c = some (s, d)) : d.rest <:+ c.rest := by
  simp only [read?] at h
  split at h
  · split at h
    · cases h
    · next name e he =>
      have hs := (take?_suffix he).trans c.dropBlanks_suffix
      split at h
      · cases h
        exact hs
      · cases hc : colons? e with
        | none => simp [hc] at h
        | some f =>
          simp only [hc, Option.map_some, Option.some.injEq, Prod.mk.injEq] at h
          obtain ⟨-, rfl⟩ := h
          exact (colons?_suffix hc).trans hs
  · split at h
    · exact take?_suffix h
    · cases h
  · split at h
    · exact take?_suffix h
    · cases h

end Pds1.Name
