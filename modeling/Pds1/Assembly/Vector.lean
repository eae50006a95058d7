import Pds1.Assembly.Basic

/-!
# Graphic data

A long vector takes three words: the difference of the two displacements, the larger one with the
beam, and the smaller one with the signs. Increment bytes go two to a word.
-/

namespace Pds1

namespace Vector

/-- Bits of the beam letter in the second word of a long vector. -/
def beam? : Char → Option Int32
  | 'B' => some 0o020000
  | 'X' => some 0o040000
  | 'D' => some 0
  | _ => none

def magnitude (v : Int32) : Int32 := if v < 0 then -v else v

def signBits (x y : Int32) : Int32 :=
  (if x < 0 then 0o040000 else 0) ||| (if y < 0 then 0o020000 else 0)

/-- The three words of a long vector. The larger displacement comes first, and a bit tells whether
that is the vertical one. -/
def words (beam x y : Int32) : List Int32 :=
  let dx := magnitude x
  let dy := magnitude y
  if dy > dx then
    [0o040000 ||| (-(dy - dx) &&& 0o7777), beam ||| (dy &&& 0o7777),
      signBits x y ||| 0o010000 ||| (dx &&& 0o7777)]
  else
    [0o040000 ||| ((dy - dx) &&& 0o7777), beam ||| (dx &&& 0o7777),
      signBits x y ||| (dy &&& 0o7777)]

end Vector

namespace Increment

/-- A step of zero to three units, backwards after an `M`. -/
def step? : List Char → Option (UInt8 × List Char)
  | 'M' :: d :: r =>
    if '0' ≤ d && d ≤ '3' then some (4 + UInt8.ofNat (d.toNat - 48), r) else none
  | d :: r => if '0' ≤ d && d ≤ '3' then some (UInt8.ofNat (d.toNat - 48), r) else none
  | [] => none

/-- A beam letter with a horizontal and a vertical step. -/
def vector? (cs : List Char) : Option (UInt8 × List Char) :=
  match cs with
  | [] => none
  | x :: r =>
    match (if x = 'B' then some 0o300 else if x = 'D' then some 0o200 else none : Option UInt8) with
    | none => none
    | some beam =>
      match step? r with
      | none => none
      | some (dx, r) =>
        match step? r with
        | none => none
        | some (dy, r) => some (beam ||| (dx <<< 3) ||| dy, r)

/-- Control letters, apart from the escape. -/
def letter? : Char → Option UInt8
  | 'N' => some 0o111
  | 'R' => some 0o151
  | 'F' => some 0o171
  | 'P' => some 0o200
  | 'X' => some 0o140
  | 'T' => some 0o100
  | _ => none

def escape : UInt8 := 0o060

/-- Two bytes in a word, the first one high. -/
def pack (high low : UInt8) : Int32 := Int32.ofNat (high.toNat * 256 + low.toNat)

theorem step?_suffix {cs rest : List Char} {b : UInt8} (h : step? cs = some (b, rest)) :
    rest <:+ cs := by
  simp only [step?] at h
  split at h
  · split at h
    · cases h
      exact (List.suffix_cons _ _).trans (List.suffix_cons _ _)
    · cases h
  · split at h
    · cases h
      exact List.suffix_cons _ _
    · cases h
  · cases h

theorem vector?_suffix {cs rest : List Char} {b : UInt8} (h : vector? cs = some (b, rest)) :
    rest <:+ cs := by
  simp only [vector?] at h
  split at h
  · cases h
  · next x r =>
    split at h
    · cases h
    · split at h
      · cases h
      · next dx r₁ h₁ =>
        split at h
        · cases h
        · next dy r₂ h₂ =>
          cases h
          exact ((step?_suffix h₂).trans (step?_suffix h₁)).trans (List.suffix_cons _ _)

end Increment

namespace Assembly

/-- A displacement after its comma. It must be a number in the first pass; a displacement that is
not counts as zero, a missing comma as none. -/
def movement (axis : String) (c : Cursor) (a : Assembly) : Option Int32 × Cursor × Assembly :=
  match c.dropBlanks.accept? ',' with
  | none => (none, c.dropBlanks, a.note (.commaExpected c.dropBlanks.next?))
  | some d =>
    let (operand, d, a) := a.operand d.dropBlanks
    if a.exprs.isInvalid operand || a.exprs.symbolic operand then
      (some 0, d, a.note (.unreadableMovement axis))
    else
      match a.valueNow operand with
      | (.ok value, a) => (some value, d, a)
      | (.error _, a) => (some 0, d, a.note (.unreadableMovement axis))

/-- Gives up on a long vector, which still takes its three words. -/
def failVector (a : Assembly) : Assembly :=
  (((a.emitWord 0).emitWord 0).emitWord 0).note (.unreadableOperands "DLV")

def longVector (c : Cursor) (a : Assembly) : Cursor × Assembly :=
  if c.operandFollows then
    let letter := c.dropBlanks.next?
    let beam := letter.bind Vector.beam?
    let a := a.noteIf beam.isNone (.invalidBeam letter)
    match movement "X" c.dropBlanks.step a with
    | (none, c, a) => (c, a.failVector)
    | (some x, c, a) =>
      match movement "Y" c a with
      | (none, c, a) => (c, a.failVector)
      | (some y, c, a) => (c, (Vector.words (beam.getD 0) x y).foldl emitWord a)
  else (c.dropBlanks, (a.note (.missingOperands "DLV")).failVector)

/-- One byte of increment data. -/
def incrementByte (first : Bool) (c : Cursor) (a : Assembly) : UInt8 × Cursor × Assembly :=
  match Number.read? a.dialect c with
  | some (value, d) =>
    (value.toUInt32.toUInt8, d, a.noteIf (value > 0o377) (.incrementTooWide value))
  | none =>
    match Increment.vector? c.rest with
    | some (byte, rest) => (byte, c.moveTo rest, a)
    | none =>
      if c.next? = some 'E' then
        if first then (Increment.escape, c.step, a) else (0, c.step, a.note .misplacedEscape)
      else
        match c.next?.bind Increment.letter? with
        | some byte => (byte, c.step, a)
        | none => (0, c, a.note .invalidIncrement)

def increments (c : Cursor) (a : Assembly) : Cursor × Assembly :=
  if c.operandFollows then
    let c := c.dropBlanks
    if a.dialect.isMidas then
      let (high, c, a) := incrementByte true c a
      match c.dropBlanks.accept? ',' with
      | none =>
        (c.dropBlanks,
          (a.note (.commaExpected c.dropBlanks.next?)).emitWord (Increment.pack high 0))
      | some d =>
        let (low, d, a) := incrementByte false d.dropBlanks a
        (d, a.emitWord (Increment.pack high low))
    else (c, (a.note .incrementUnavailable).emitWord 0)
  else (c.dropBlanks, (a.note (.missingOperands "INC")).emitWord 0)

theorem movement_suffix (axis : String) (c : Cursor) (a : Assembly) :
    (movement axis c a).2.1.rest <:+ c.rest := by
  rw [movement]
  split
  · exact c.dropBlanks_suffix
  · next d h =>
    have hs : (a.operand d.dropBlanks).2.1.rest <:+ c.rest :=
      (((operand_suffix _ _).trans d.dropBlanks_suffix).trans (Cursor.accept?_suffix h)).trans
        c.dropBlanks_suffix
    simp only
    split
    · exact hs
    · split <;> exact hs

theorem longVector_suffix (c : Cursor) (a : Assembly) : (longVector c a).1.rest <:+ c.rest := by
  rw [longVector]
  split
  · have hb := (Cursor.step_suffix c.dropBlanks).trans c.dropBlanks_suffix
    simp only
    split
    · next c₁ a₁ h₁ =>
      have hx := movement_suffix "X" c.dropBlanks.step
        (a.noteIf (c.dropBlanks.next?.bind Vector.beam?).isNone (.invalidBeam c.dropBlanks.next?))
      rw [h₁] at hx
      exact hx.trans hb
    · next x c₁ a₁ h₁ =>
      have hx := movement_suffix "X" c.dropBlanks.step
        (a.noteIf (c.dropBlanks.next?.bind Vector.beam?).isNone (.invalidBeam c.dropBlanks.next?))
      rw [h₁] at hx
      have hy := movement_suffix "Y" c₁ a₁
      split
      · next c₂ a₂ h₂ =>
        rw [h₂] at hy
        exact (hy.trans hx).trans hb
      · next y c₂ a₂ h₂ =>
        rw [h₂] at hy
        exact (hy.trans hx).trans hb
  · exact c.dropBlanks_suffix

theorem incrementByte_suffix (first : Bool) (c : Cursor) (a : Assembly) :
    (incrementByte first c a).2.1.rest <:+ c.rest := by
  rw [incrementByte]
  split
  · next h => exact Number.read?_suffix h
  · split
    · next h => exact Increment.vector?_suffix h
    · split
      · split <;> exact c.step_suffix
      · split
        · exact c.step_suffix
        · exact List.suffix_refl _

theorem increments_suffix (c : Cursor) (a : Assembly) : (increments c a).1.rest <:+ c.rest := by
  rw [increments]
  split
  · simp only
    split
    · have hh := (incrementByte_suffix true c.dropBlanks a).trans c.dropBlanks_suffix
      split
      · exact (Cursor.dropBlanks_suffix _).trans hh
      · next d h =>
        exact ((((incrementByte_suffix _ _ _).trans d.dropBlanks_suffix).trans
          (Cursor.accept?_suffix h)).trans (Cursor.dropBlanks_suffix _)).trans hh
    · exact c.dropBlanks_suffix
  · exact c.dropBlanks_suffix

end Assembly

end Pds1
