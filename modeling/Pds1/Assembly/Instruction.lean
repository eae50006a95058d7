import Pds1.Assembly.Basic

/-!
# Machine instructions

Each group of orders reads its own operands and emits one word; the display order that is not
carried out emits none. Reading never moves the cursor backwards.
-/

namespace Pds1

/-- A tag written in front of a mnemonic. -/
inductive Tag where
  | indirect
  /-- A `D` that belongs to the name of the mnemonic. -/
  | display
  deriving DecidableEq

namespace Assembly

/-- Set in a memory reference that goes through a pointer. -/
def indirectBit : Int32 := 0o100000

/-- Whether a tag or a marker in front of the operand asks for indirect addressing. -/
def indirect (m : Mnemonic) (tag : Option Tag) (c : Cursor) (a : Assembly) :
    Bool × Cursor × Assembly :=
  let a := a.noteIf (tag = some .display) (.displayTag m.name)
  let c := c.dropBlanks
  if a.dialect.isIndirectMarker c.current then (true, c.step, a) else (tag == some .indirect, c, a)

def processor (m : Mnemonic) (tag : Option Tag) (c : Cursor) (a : Assembly) :
    Cursor × Assembly :=
  let (indirect, c, a) := indirect m tag c a
  if m.takesConstant then
    let a := a.noteIf indirect (.indirectMode m.name)
    let (operand, c, a) := a.operand c
    (c, a.emitField .mask 0o3777 m.code operand)
  else
    let (operand, c, a) := a.operand c
    let code := if indirect then m.code ||| indirectBit else m.code
    (c, a.emitField .page11 a.location code operand)

/-- Reads an operand that must follow a blank, or emits a zero word. -/
def requiredOperand (m : Mnemonic) (c : Cursor) (a : Assembly)
    (next : ExprId → Assembly → Assembly) : Cursor × Assembly :=
  if c.operandFollows then
    let (operand, c, a) := a.operand c.dropBlanks
    (c, next operand a)
  else (c.dropBlanks, (a.note (.missingOperand m.name)).emitWord 0)

def display (m : Mnemonic) (tag : Option Tag) (c : Cursor) (a : Assembly) : Cursor × Assembly :=
  let a := a.noteIf tag.isSome (.indirectTag m.name)
  if m.code = Mnemonic.deimCode then
    (c, { a with log := a.log.push (.notImplemented m.name) }.note (.notImplemented m.name))
  else
    requiredOperand m c a fun operand a =>
      if m.code < Mnemonic.deimCode then a.emitField .mask 0o1777 m.code operand
      else a.emitField .page12 a.location m.code operand

def displayOperate (m : Mnemonic) (c : Cursor) (a : Assembly) : Cursor × Assembly :=
  match m.field? with
  | none => (c, a.emitWord m.code)
  | some mask => requiredOperand m c a fun operand a => a.emitField .mask mask m.code operand

def iot (m : Mnemonic) (tag : Option Tag) (c : Cursor) (a : Assembly) : Cursor × Assembly :=
  let a := a.noteIf tag.isSome (.indirectTag m.name)
  (c, a.emitWord m.code)

/-- Joins the operate orders that follow, each after a backslash or a bar, to `code`. -/
def combine (first : String) (code : Int32) (c : Cursor) (a : Assembly) :
    Int32 × Cursor × Assembly :=
  match _h : c.rest with
  | [] => (code, c, a)
  | x :: r =>
    if x = '\\' || x = '|' then
      match _hm : Mnemonic.read? false (c.moveTo r) with
      | none => (code, c.moveTo r, a.note (.missingCombination x))
      | some (next, d) =>
        if next.group ≠ .operate then (code, d, a.note (.cannotCombine next.name first))
        else if code = 0 || next.code = 0 then (code, d, a.note .combinedHalt)
        else combine first (code ||| next.code) d a
    else (code, c, a)
termination_by c.rest.length
decreasing_by
  have h := (Mnemonic.read?_suffix _hm).length_le
  simp only [Cursor.rest_moveTo] at h
  simp only [_h, List.length_cons]
  omega

def operate (m : Mnemonic) (c : Cursor) (a : Assembly) : Cursor × Assembly :=
  let (code, c, a) := combine m.name m.code c a
  (c, a.emitWord code)

def shift (m : Mnemonic) (tag : Option Tag) (c : Cursor) (a : Assembly) : Cursor × Assembly :=
  let (indirect, c, a) := indirect m tag c a
  let a := a.noteIf indirect (.indirectMode m.name)
  let (operand, c, a) := a.operand c
  (c, a.emitField .mask 0o3 m.code operand)

theorem indirect_suffix (m : Mnemonic) (tag : Option Tag) (c : Cursor) (a : Assembly) :
    (indirect m tag c a).2.1.rest <:+ c.rest := by
  unfold indirect
  simp only
  split
  · exact (Cursor.step_suffix _).trans c.dropBlanks_suffix
  · exact c.dropBlanks_suffix

theorem processor_suffix (m : Mnemonic) (tag : Option Tag) (c : Cursor) (a : Assembly) :
    (processor m tag c a).1.rest <:+ c.rest := by
  rw [processor]
  simp only
  split
  · exact (operand_suffix _ _).trans (indirect_suffix m tag c a)
  · exact (operand_suffix _ _).trans (indirect_suffix m tag c a)

theorem requiredOperand_suffix (m : Mnemonic) (c : Cursor) (a : Assembly)
    (next : ExprId → Assembly → Assembly) :
    (requiredOperand m c a next).1.rest <:+ c.rest := by
  rw [requiredOperand]
  split
  · exact (operand_suffix _ _).trans c.dropBlanks_suffix
  · exact c.dropBlanks_suffix

theorem display_suffix (m : Mnemonic) (tag : Option Tag) (c : Cursor) (a : Assembly) :
    (display m tag c a).1.rest <:+ c.rest := by
  unfold display
  simp only
  split
  · exact List.suffix_refl _
  · exact requiredOperand_suffix _ _ _ _

theorem displayOperate_suffix (m : Mnemonic) (c : Cursor) (a : Assembly) :
    (displayOperate m c a).1.rest <:+ c.rest := by
  rw [displayOperate]
  split
  · exact List.suffix_refl _
  · exact requiredOperand_suffix _ _ _ _

theorem combine_suffix (first : String) (code : Int32) (c : Cursor) (a : Assembly) :
    (combine first code c a).2.1.rest <:+ c.rest := by
  fun_induction combine first code c a with
  | case1 => exact List.suffix_refl _
  | case2 code c x r h => simp [h]
  | case3 code c x r h _ next d hm =>
    rw [h]
    exact (Mnemonic.read?_suffix hm).trans (List.suffix_cons _ _)
  | case4 code c x r h _ next d hm =>
    rw [h]
    exact (Mnemonic.read?_suffix hm).trans (List.suffix_cons _ _)
  | case5 code c x r h _ next d hm _ _ ih =>
    rw [h]
    exact (ih.trans (Mnemonic.read?_suffix hm)).trans (List.suffix_cons _ _)
  | case6 => exact List.suffix_refl _

theorem shift_suffix (m : Mnemonic) (tag : Option Tag) (c : Cursor) (a : Assembly) :
    (shift m tag c a).1.rest <:+ c.rest :=
  (operand_suffix _ _).trans (indirect_suffix m tag c a)

end Assembly

end Pds1
